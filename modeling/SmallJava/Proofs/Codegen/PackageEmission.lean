import SmallJava.Proofs.Codegen.StmtEmission
import SmallJava.Proofs.Layout

namespace SmallJava

open Gen

/-- A generated program, with the table that came back. -/
def Executable.image (executable : Executable) (table : SymbolTable) : Image where
  fetch := executable.code.get?
  signature := table.signature
  slot? := table.slot?

namespace Gen

/-- A method gets a place that the finished program keeps. -/
theorem place_emits {x : SymbolId} {d : Int} {s s' : GenState} (hset : setSlot x d s = .ok () s') :
    s'.here = s.here ∧ Emits s s' [] fun im _ =>
      (im.signature.kind? x).isSome → im.slot? x = some d := by
  obtain ⟨table, htable, rfl⟩ := setSlot_eq_ok_iff.1 hset
  refine ⟨rfl, ?_⟩
  have hsilent : Emits s { s with table } [] _ := Emits.silent rfl rfl
    (SymbolTable.signature_setSlot htable) fun _ _ hslot => SymbolTable.slot?_setSlot_of_some htable hslot
  refine ((Emits.look s).trans hsilent).weaken fun im _ hshape hin => ?_
  obtain ⟨⟨hsig, -⟩, hslots⟩ := hshape
  rw [← hsig] at hin
  exact hslots x d (SymbolTable.slot?_setSlot_self htable hin)

end Gen

namespace MethodDef

variable {options : Options}

/-- A method starts with an empty frame, and control never runs past its code. -/
theorem gen_emits {method : MethodDef} {s s' : GenState}
    (hgen : method.gen options s = .ok () s') :
    Emits s s' [] fun im _ => method.Code im options s.here s'.here := by
  obtain ⟨x, _, hname, hgen⟩ := bind_eq_ok_iff.1 hgen
  obtain ⟨hbound, rfl⟩ := bound_eq_ok_iff.1 hname
  obtain ⟨_, s₁, hline, hgen⟩ := bind_eq_ok_iff.1 hgen
  obtain ⟨hsame₁, -, hline⟩ := setLine_emits hline
  obtain ⟨_, _, hhere, hgen⟩ := bind_eq_ok_iff.1 hgen
  obtain ⟨rfl, rfl⟩ := here_eq_ok_iff.1 hhere
  obtain ⟨_, s₂, hset, hgen⟩ := bind_eq_ok_iff.1 hgen
  obtain ⟨hsame₂, hslot⟩ := place_emits hset
  obtain ⟨_, s₃, hfresh, hgen⟩ := bind_eq_ok_iff.1 hgen
  obtain rfl := modify_eq_ok_iff.1 hfresh
  have hfresh : Emits s₂ { s₂ with nextLocal := linkDataSize, known := .empty } [] fun _ _ => True :=
    Emits.still s₂ _ rfl rfl rfl
  obtain ⟨_, s₄, hbody, hgen⟩ := bind_eq_ok_iff.1 hgen
  have hbody := Stmt.genAll_yields _ _ hbody
  have hbefore := (hline.trans (hslot.trans hfresh)).trans hbody
  have hshape : ∀ (im : Image) (_ : Label → Nat),
      (True ∧ ((im.signature.kind? x).isSome →
        im.slot? x = some (Address.toOperand s₁.asm.here)) ∧ True) ∧
        Stmt.ListCode im (method.site options) method.body ⟨linkDataSize, .empty⟩ s₂.here s₄.here
          s₄.tracked →
      ((im.signature.kind? x).isSome → im.slot? x = some (Address.toOperand s.here)) ∧
        Stmt.ListCode im (method.site options) method.body ⟨linkDataSize, .empty⟩ s.here s₄.here
          s₄.tracked := by
    rintro im - ⟨⟨-, hslot, -⟩, hbody⟩
    rw [hsame₂, hsame₁] at hbody
    have hhere : s₁.asm.here = s.here := hsame₁
    rw [hhere] at hslot
    exact ⟨hslot, hbody⟩
  by_cases hfalls : (method.returnType.isVoid && !Stmt.allReturn method.body) = true
  · rw [if_pos hfalls] at hgen
    obtain ⟨hnext, -, hreturn⟩ :=
      Emits.one (.returnWith 0 method.params.length) (emit_eq_ok_iff.1 hgen)
    refine ((hbefore.weaken hshape).trans hreturn).weaken fun im _ hshape => ?_
    obtain ⟨⟨hslot, hbody⟩, hreturn⟩ := hshape
    obtain ⟨hvoid, hfalls⟩ := Bool.and_eq_true_iff.1 hfalls
    rw [hnext]
    exact .falls hbound hslot hbody hvoid (by simpa using hfalls) hreturn
  · rw [if_neg hfalls] at hgen
    obtain ⟨-, rfl⟩ := pure_eq_ok_iff.1 hgen
    refine (hbefore.weaken hshape).weaken fun im _ hshape => ?_
    refine .returns hbound hshape.1 hshape.2 fun hvoid => ?_
    simpa [hvoid] using hfalls

/-- The methods stand in the code in their order, without gaps. -/
theorem genAll_emits {methods : List MethodDef} {s s' : GenState}
    (hgen : genAll options methods s = .ok () s') :
    Emits s s' [] fun im _ => ListCode im options methods s.here s'.here := by
  induction methods generalizing s with
  | nil =>
    obtain ⟨-, rfl⟩ := pure_eq_ok_iff.1 hgen
    exact (Emits.look s).weaken fun im _ _ => .nil
  | cons method rest ih =>
    obtain ⟨_, s₁, hmethod, hrest⟩ := bind_eq_ok_iff.1 hgen
    exact ((gen_emits hmethod).trans (ih hrest)).weaken fun im _ hshape =>
      .cons hshape.1 hshape.2

end MethodDef

namespace Gen

/-- Words are reserved by one instruction, if there are any. -/
theorem reserve_emits {count : Int} {s s' : GenState} (hpush : emit (·.push count) s = .ok () s') :
    Emits s s' [] fun im _ => ReserveCode im count s.here s'.here := by
  have hafter := emit_eq_ok_iff.1 hpush
  unfold Assembler.push at hafter
  by_cases hcount : 0 < count
  · rw [if_pos hcount] at hafter
    obtain ⟨hnext, -, hone⟩ := Emits.one (.push count) hafter
    refine hone.weaken fun im _ hone => ?_
    rw [hnext]
    exact .some hcount hone
  · rw [if_neg hcount] at hafter
    subst hafter
    exact (Emits.look s).weaken fun im _ _ => .none (Int.not_lt.1 hcount)

/-- The code starts by reserving the static fields and calling the entry point with an empty array,
and halts when that returns. -/
theorem prologue_emits {statics : Int} {entry : SymbolId} {s s' : GenState}
    (hprologue : prologue statics entry s = .ok () s') :
    Emits s s' [] fun im _ => ∃ a : Nat, ReserveCode im statics s.here a ∧
      im.Holds a (.literal 0) ∧ im.Holds (a + 1) (.primitive .newarr) ∧
      (∃ start, im.slot? entry = some start ∧ im.Holds (a + 2) (.call start)) ∧
      im.Holds (a + 3) .halt ∧ s'.here = a + 4 := by
  obtain ⟨_, s₁, hline, hprologue⟩ := bind_eq_ok_iff.1 hprologue
  obtain ⟨hsame, -, hline⟩ := setLine_emits hline
  obtain ⟨_, s₂, hreserve, hprologue⟩ := bind_eq_ok_iff.1 hprologue
  have hreserve := reserve_emits hreserve
  obtain ⟨_, s₃, hlength, hprologue⟩ := bind_eq_ok_iff.1 hprologue
  obtain ⟨hnext₃, -, hlength⟩ := Emits.one (.literal 0) (emit_eq_ok_iff.1 hlength)
  obtain ⟨_, s₄, harray, hprologue⟩ := bind_eq_ok_iff.1 hprologue
  obtain ⟨hnext₄, -, harray⟩ := Emits.one (.primitive .newarr) (emit_eq_ok_iff.1 harray)
  obtain ⟨_, s₅, hcall, hhalt⟩ := bind_eq_ok_iff.1 hprologue
  obtain rfl := emit_eq_ok_iff.1 hcall
  have hcall := Emits.callLater s₄ .call entry
  have hnext₅ : GenState.here { s₄ with asm := s₄.asm.callLater .call entry } = s₄.here + 1 :=
    Assembler.here_emit ..
  obtain ⟨hnext₆, -, hhalt⟩ := Emits.one .halt (emit_eq_ok_iff.1 hhalt)
  refine (hline.trans (hreserve.trans (hlength.trans (harray.trans
    (hcall.trans hhalt))))).weaken fun im _ hshape => ?_
  obtain ⟨-, hreserve, hlength, harray, hcall, hhalt⟩ := hshape
  rw [hsame] at hreserve
  rw [hnext₅] at hnext₆ hhalt
  rw [hnext₄] at hnext₆ hcall hhalt
  rw [hnext₃] at hnext₆ harray hcall hhalt
  exact ⟨s₂.here, hreserve, hlength, harray, hcall, hhalt, hnext₆⟩

/-- The built-in method prints its argument and returns nothing; it is three instructions long. -/
theorem printlnBody_emits {println : SymbolId} {s s' : GenState}
    (hbody : printlnBody println s = .ok () s') :
    s'.here = s.here + 3 ∧ Emits s s' [] fun im _ =>
      ((im.signature.kind? println).isSome →
        im.slot? println = some (Address.toOperand s.here)) ∧
      im.Holds s.here (.load .lb (-1)) ∧ im.Holds (s.here + 1) (.primitive .putintnl) ∧
      im.Holds (s.here + 2) (.returnWith 0 1) := by
  obtain ⟨_, _, hhere, hbody⟩ := bind_eq_ok_iff.1 hbody
  obtain ⟨rfl, rfl⟩ := here_eq_ok_iff.1 hhere
  obtain ⟨_, s₁, hset, hbody⟩ := bind_eq_ok_iff.1 hbody
  obtain ⟨hsame, hslot⟩ := place_emits hset
  obtain ⟨_, s₂, harg, hbody⟩ := bind_eq_ok_iff.1 hbody
  obtain ⟨hnext₂, -, harg⟩ := Emits.one (.load .lb (-1)) (emit_eq_ok_iff.1 harg)
  obtain ⟨_, s₃, hput, hreturn⟩ := bind_eq_ok_iff.1 hbody
  obtain ⟨hnext₃, -, hput⟩ := Emits.one (.primitive .putintnl) (emit_eq_ok_iff.1 hput)
  obtain ⟨hnext₄, -, hreturn⟩ := Emits.one (.returnWith 0 1) (emit_eq_ok_iff.1 hreturn)
  rw [hnext₃, hnext₂, hsame] at hnext₄
  refine ⟨hnext₄, (hslot.trans (harg.trans (hput.trans hreturn))).weaken fun im _ hshape => ?_⟩
  obtain ⟨hslot, harg, hput, hreturn⟩ := hshape
  rw [hsame] at harg
  rw [hnext₂, hsame] at hput
  rw [hnext₃, hnext₂, hsame] at hreturn
  exact ⟨hslot, harg, hput, hreturn⟩

end Gen

/-- Completing noted calls changes the operands of these calls and nothing else. -/
theorem Code.get?_relocate {table : SymbolTable} {notes : List Relocation} {code code' : Code}
    (hsorted : notes.Pairwise fun note note' => (note.address : Nat) < note'.address)
    (hrelocate : code.relocate table notes = (.ok (), code')) :
    code'.size = code.size ∧ (∀ note ∈ notes, (table.slot? note.target).isSome) ∧
      ∀ a, code'.get? a = (code.get? a).map fun instr => { instr with
        d := match notes.find? (·.address = a) with
          | some note => (table.slot? note.target).getD instr.d
          | none => instr.d } := by
  induction notes generalizing code with
  | nil =>
    obtain ⟨-, rfl⟩ := Prod.mk.inj hrelocate
    exact ⟨rfl, by simp, fun a => by simp⟩
  | cons note rest ih =>
    obtain ⟨hfirst, hsorted⟩ := List.pairwise_cons.1 hsorted
    unfold relocate at hrelocate
    cases hslot : table.slot? note.target with
    | none => simp [hslot] at hrelocate
    | some d =>
      cases hpatch : code.patch? note.address d with
      | none => simp [hslot, hpatch] at hrelocate
      | some code₁ =>
        simp only [hslot, Option.bind_some, hpatch] at hrelocate
        obtain ⟨hsize, hplaced, hget⟩ := ih hsorted hrelocate
        have hcode₁ : code₁ = code.patch note.address d := by simp [Code.patch, hpatch]
        refine ⟨by rw [hsize, hcode₁, Code.size_patch], ?_, ?_⟩
        · intro note' hmem
          obtain rfl | hmem := List.mem_cons.1 hmem
          · simp [hslot]
          · exact hplaced note' hmem
        · intro a
          rw [hget a, hcode₁, Code.get?_patch, Option.map_map]
          congr 1
          funext instr
          simp only [Function.comp_apply]
          by_cases heq : a = note.address
          · subst heq
            have hrest : rest.find? (·.address = note.address) = none := by
              refine List.find?_eq_none.2 fun note' hmem => ?_
              have hlt := hfirst note' hmem
              simpa using Nat.ne_of_gt hlt
            simp [hrest, hslot]
          · have hne : ¬ note.address = a := fun h => heq h.symm
            simp [heq, hne]

/-- The layout changes the slots of the table and nothing else. -/
theorem Gen.layout_eq_ok_iff {statics : Int} {s s' : GenState} :
    Gen.layout s = .ok statics s' ↔
      ∃ table, SlotWriter.layout s.table = .ok statics table ∧ { s with table } = s' := by
  unfold Gen.layout
  cases SlotWriter.layout s.table with
  | error fault table => simp
  | ok found table =>
    constructor
    · rintro ⟨⟩
      exact ⟨table, rfl, rfl⟩
    · rintro ⟨_, ⟨⟩, rfl⟩
      rfl

/-- Finished code realizes the code under construction. -/
theorem GenState.realizes_of_finish {state : GenState} (executable : Executable)
    (hnoted : state.asm.Noted) (hfinish : state.asm.finish state.table = .ok executable.code) :
    state.Realizes (executable.image state.table) (fun _ => none) ∧
      executable.code.size = state.here := by
  unfold Assembler.finish at hfinish
  split at hfinish
  next u found hrelocate =>
    obtain rfl := Except.ok.inj hfinish
    obtain ⟨hsize, hplaced, hget⟩ := Code.get?_relocate hnoted.sorted hrelocate
    refine ⟨⟨rfl, fun _ _ h => h, hplaced, ?_⟩, hsize⟩
    intro a hlt
    refine (hget a).trans ?_
    congr 1
    funext instr
    unfold Assembler.finalOperand Assembler.noted?
    cases state.asm.relocations.find? (·.address = a) <;> rfl
  next => cases hfinish

namespace Package

/-- The steps of a generation that succeeds. -/
theorem generate_runs {options : Options} {analysis : Analysis} {entry : SymbolId}
    {package : Package} {executable : Executable} {table : SymbolTable}
    (hgen : package.generate options analysis entry = (.ok executable, table)) :
    ∃ statics laidOut s₁ s₂ s₃, SlotWriter.layout analysis.table = .ok statics laidOut ∧
      prologue statics entry { table := laidOut } = .ok () s₁ ∧
      printlnBody analysis.builtins.println s₁ = .ok () s₂ ∧
      MethodDef.genAll options (package.classes.flatMap (·.methods)) s₂ = .ok () s₃ ∧
      s₃.asm.finish s₃.table = .ok executable.code ∧
      executable.relocations = s₃.asm.relocations ∧ table = s₃.table := by
  unfold generate at hgen
  split at hgen
  next found final hrun =>
    obtain ⟨hfound, rfl⟩ := Prod.mk.inj hgen
    obtain rfl := Except.ok.inj hfound
    obtain ⟨statics, s₁, hlayout, hrun⟩ := bind_eq_ok_iff.1 hrun
    obtain ⟨laidOut, hlaidOut, rfl⟩ := layout_eq_ok_iff.1 hlayout
    obtain ⟨_, s₂, hprologue, hrun⟩ := bind_eq_ok_iff.1 hrun
    obtain ⟨_, s₃, hprintln, hrun⟩ := bind_eq_ok_iff.1 hrun
    obtain ⟨_, s₄, hmethods, hrun⟩ := bind_eq_ok_iff.1 hrun
    obtain ⟨entrySlot, _, hentry, hrun⟩ := bind_eq_ok_iff.1 hrun
    obtain ⟨-, rfl⟩ := expectSlot_eq_ok_iff.1 hentry
    obtain ⟨_, _, hget, hrun⟩ := bind_eq_ok_iff.1 hrun
    obtain ⟨rfl, rfl⟩ := get_eq_ok_iff.1 hget
    obtain ⟨code, _, hfinish, hrun⟩ := bind_eq_ok_iff.1 hrun
    obtain ⟨hfinished, rfl⟩ := ofExcept_eq_ok_iff.1 hfinish
    obtain ⟨rfl, rfl⟩ := pure_eq_ok_iff.1 hrun
    exact ⟨statics, laidOut, s₂, s₃, s₄, hlaidOut, hprologue, hprintln, hmethods, hfinished, rfl, rfl⟩
  next => cases hgen

/-- The code that the steps of a generation lay down. -/
theorem code_of_runs {options : Options} {builtins : Builtins} {entry : SymbolId}
    {package : Package} {executable : Executable} {statics : Int} {laidOut : SymbolTable}
    {s₁ s₂ s₃ : GenState} (hprologue : prologue statics entry { table := laidOut } = .ok () s₁)
    (hprintln : printlnBody builtins.println s₁ = .ok () s₂)
    (hmethods : MethodDef.genAll options (package.classes.flatMap (·.methods)) s₂ = .ok () s₃)
    (hfinished : s₃.asm.finish s₃.table = .ok executable.code) :
    ∃ a, s₂.here = a + 7 ∧ SymbolTable.Assigned laidOut s₃.table ∧
      package.Code (executable.image s₃.table) options builtins entry statics a
        executable.code.size := by
  obtain ⟨hnext, hprintln⟩ := printlnBody_emits hprintln
  have hall := (Emits.look _).trans
    ((prologue_emits hprologue).trans (hprintln.trans (MethodDef.genAll_emits hmethods)))
  have hempty : Assembler.Noted {} := ⟨by simp, List.Pairwise.nil⟩
  obtain ⟨hreal, hsize⟩ :=
    GenState.realizes_of_finish executable (hall.noted hempty) hfinished
  obtain ⟨⟨⟨hsig, hslots⟩, ⟨a, hreserve, hlength, harray, hcall, hhalt, hhere⟩,
    ⟨hslot, harg, hput, hreturn⟩, hmethods⟩, -⟩ :=
    hall.shape hempty _ _ (fun _ => 0) hreal fun _ _ _ => by simp
  rw [hhere] at hslot harg hput hreturn hnext
  rw [hnext] at hmethods
  refine ⟨a, hnext, ⟨hsig.symm, hslots⟩, ?_⟩
  rw [hsize]
  exact ⟨hreserve, hlength, harray, hcall, hhalt, hslot, harg, hput, hreturn, hmethods⟩

/-- The code of a generated program has its shape, and the table that came back tells
where everything is. -/
theorem generate_code {options : Options} {analysis : Analysis} {entry : SymbolId}
    {package : Package} {executable : Executable} {table : SymbolTable}
    (hgen : package.generate options analysis entry = (.ok executable, table)) :
    ∃ statics a laidOut, SlotWriter.layout analysis.table = .ok statics laidOut ∧
      SymbolTable.Assigned analysis.table table ∧ SymbolTable.Assigned laidOut table ∧
      package.Code (executable.image table) options analysis.builtins entry statics a
        executable.code.size := by
  obtain ⟨statics, laidOut, s₁, s₂, s₃, hlaidOut, hprologue, hprintln, hmethods, hfinished, -, rfl⟩ :=
    generate_runs hgen
  obtain ⟨a, -, hassigned, hcode⟩ := code_of_runs hprologue hprintln hmethods hfinished
  exact ⟨statics, a, laidOut, hlaidOut, (SlotWriter.assigned_of_layout hlaidOut).trans hassigned,
    hassigned, hcode⟩

end Package

end SmallJava
