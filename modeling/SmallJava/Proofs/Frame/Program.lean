import Mathlib.Data.List.Nodup
import SmallJava.Proofs.Flow.Program
import SmallJava.Proofs.Frame.Statement
import SmallJava.Proofs.Progress.Program

namespace SmallJava

/-- The method whose code starts at an address. -/
def SymbolTable.methodAt? (table : SymbolTable) (d : Int) : Option SymbolId :=
  ((List.range table.size).map SymbolId.mk).find? fun m =>
    table.isMethod m && decide (table.slot? m = some d)

/-- The methods have their code in different places. -/
def SymbolTable.Separate (table : SymbolTable) : Prop :=
  ∀ m m' d, table.isMethod m = true → table.isMethod m' = true → table.slot? m = some d →
    table.slot? m' = some d → m = m'

/-- Where methods have different places, the method found at the place of one is this method. -/
theorem SymbolTable.methodAt?_eq {table : SymbolTable} (hseparate : table.Separate) {m : SymbolId}
    {info : MethodInfo} {d : Int} (hkind : table.kind? m = some (.method info))
    (hslot : table.slot? m = some d) : table.methodAt? d = some m := by
  have hmethod : table.isMethod m = true := table.signature.isMethod_iff.2 ⟨info, hkind⟩
  have hmem : m ∈ (List.range table.size).map SymbolId.mk :=
    List.mem_map.2 ⟨m.index, List.mem_range.2 (lt_size_of_kind? hkind), rfl⟩
  unfold methodAt?
  cases hfind : ((List.range table.size).map SymbolId.mk).find? fun m =>
      table.isMethod m && decide (table.slot? m = some d) with
  | none =>
    have hnot := List.find?_eq_none.1 hfind m hmem
    simp [hmethod, hslot] at hnot
  | some found =>
    have hfound := List.find?_some hfind
    simp only [Bool.and_eq_true, decide_eq_true_eq] at hfound
    rw [hseparate found m d hfound.1 hmethod hfound.2 hslot]

/-- What a method is to do with its frame: it leaves its result, if it has one, and takes its
    arguments away. -/
def SymbolTable.frameRule (table : SymbolTable) (m : SymbolId) : FrameRule where
  methodAt? := table.methodAt?
  results := if (table.typeOf m).isVoid then 0 else 1
  args := (table.paramsOf m).length

/-- One height of the frame for every place that a method can get to: wherever it stands, its
    instruction may run at that height, and moves it to that of every place that can come
    next. -/
structure Code.Framed (code : Code) (sig : Signature) (rule : FrameRule) (start : Int)
    (height : Int → Int) : Prop where
  empty : height start = linkDataSize
  step : ∀ a, code.Reaches start a → ∃ (n : Nat) (instr : Instruction) (effect : StackEffect),
    a = n ∧ code.get? n = some instr ∧ instr.effect? sig rule.methodAt? = some effect ∧
      instr.Respects rule effect (height a) ∧
        ∀ b ∈ instr.successors n, height b = height a - effect.pops + effect.pushes

/-- Heights are found where control stays between two addresses at known heights. -/
theorem Code.exists_framed {im : Image} {code : Code} (hcode : im.fetch = code.get?)
    {rule : FrameRule} {lo hi s : Nat}
    (hstays : (im.frames rule).Stays lo hi Flow.Nowhere s linkDataSize) :
    ∃ height, code.Framed im.signature rule s height := by
  obtain ⟨state, hstart, inside, hin, hinside⟩ := hstays.exists_state
  refine ⟨fun a => state a.toNat, hstart, fun a hreach => ?_⟩
  suffices hplace : ∃ n : Nat, a = n ∧ inside n by
    obtain ⟨n, rfl, hn⟩ := hplace
    obtain ⟨-, -, instr, effect, hholds, heffect, hrespects, hnext⟩ := hinside n hn
    refine ⟨n, instr, effect, rfl, by rw [← hcode]; exact hholds, heffect, hrespects,
      fun b hmem => ?_⟩
    obtain ⟨c, rfl, -, hheight⟩ := hnext b hmem
    exact hheight
  induction hreach with
  | start => exact ⟨s, rfl, hin⟩
  | @step c b instr _ hfetch hmem ih =>
    obtain ⟨n, heq, hn⟩ := ih
    obtain rfl : c = n := Int.ofNat.inj heq
    obtain ⟨-, -, instr', effect, hholds, -, -, hnext⟩ := hinside c hn
    have hsame : instr' = instr := by
      unfold Image.Holds at hholds
      rw [hcode, hfetch] at hholds
      exact (Option.some.inj hholds).symm
    obtain ⟨d, rfl, hd, -⟩ := hnext b (hsame ▸ hmem)
    exact ⟨d, rfl, hd⟩

open SmallJava.Flow

/-- Where control never gets to the end, no height is needed there. -/
theorem Image.stays_of_control {im : Image} {rule : FrameRule} {lo hi a b : Nat}
    {height height' : Int} (hhi : hi ≤ b)
    (hthrough : (im.frames rule).Through lo hi Nowhere a height b height')
    (hcontrol : im.control.Stays lo hi Nowhere a ()) :
    (im.frames rule).Stays lo hi Nowhere a height := by
  obtain ⟨region, hregion, hin⟩ := hcontrol
  obtain ⟨-, ⟨rfl, -⟩ | ⟨heights, hheights, hin'⟩⟩ := hthrough
  · have hbounds := hregion.bounds a () hin
    omega
  refine ⟨fun c h => region c () ∧ heights c h, ⟨fun c h hc => hheights.bounds c h hc.2,
    fun c h h' hc hc' => hheights.unique c h h' hc.2 hc'.2, fun c h hc => ?_⟩, hin, hin'⟩
  obtain ⟨instr, hholds, hnext⟩ := hregion.closed c () hc.1
  obtain ⟨instr', effect, hholds', heffect, hrespects, hnext'⟩ := hheights.closed c h hc.2
  obtain rfl : instr = instr' := Option.some.inj (hholds.symm.trans hholds')
  refine ⟨instr, effect, hholds', heffect, hrespects, fun d hmem => ?_⟩
  obtain ⟨n, rfl, hn⟩ := hnext d hmem
  obtain ⟨n', heq, hn'⟩ := hnext' n hmem
  obtain rfl : n = n' := Int.ofNat.inj heq
  refine ⟨n, rfl, .inl ?_⟩
  -- the end is outside of what control reaches
  obtain hn | hn := hn
  · obtain hn' | hn' | ⟨rfl, -⟩ := hn'
    · exact ⟨hn, hn'⟩
    · exact hn'.elim
    · have hbounds := hregion.bounds n () hn
      omega
  · exact hn.elim

namespace MethodDef

variable {im : Image} {options : Options} {method : MethodDef} {m : SymbolId} {info : MethodInfo}
  {a b : Nat}

/-- The heights of a method agree, from an empty frame on. -/
theorem Code.frames {rule : FrameRule} (h : method.Code im options a b) (hfits : b < 0x80000000)
    (htyped : method.WellTyped im.signature m info)
    (hplain : Stmt.allPlainUpdates method.body = true)
    (hrule : rule.Governs im
      ⟨im.signature, info.owner, info.modifiers.isStatic, im.signature.typeOf m, info.params⟩)
    (hargs : rule.args = info.params.length) (hframe : im.Frame info.params [] linkDataSize) :
    (im.frames rule).Stays a b Nowhere a linkDataSize := by
  have hsite : rule.args = (method.site options).argCount := by
    rw [hargs, htyped.arity]
    rfl
  have hcontrol := h.control hfits htyped.returns
  cases h with
  | falls _ _ hbody hvoid _ hreturn =>
    obtain ⟨more, hmore, hthrough⟩ :=
      hbody.frames hrule hsite (by omega) htyped.body hplain hframe
    refine (hthrough Nowhere).stays (hrule.returns hsite ?_ hreturn ?_)
    · rw [htyped.isVoid, hvoid]
      rfl
    · simpa using hmore.within.base
  | returns _ _ hbody _ =>
    obtain ⟨more, -, hthrough⟩ := hbody.frames hrule hsite hfits htyped.body hplain hframe
    exact Image.stays_of_control (Nat.le_refl b) (hthrough Nowhere) hcontrol

/-- A method has code. -/
theorem Code.lt (h : method.Code im options a b) (hfits : b < 0x80000000)
    (htyped : method.WellTyped im.signature m info) : a < b := by
  obtain ⟨region, hregion, hin⟩ := h.control hfits htyped.returns
  exact (hregion.bounds a () hin).2

/-- Methods start where their code does, in the order in which they are written. -/
theorem ListCode.slots {methods : List MethodDef} (h : ListCode im options methods a b)
    (hfits : b < 0x80000000)
    (htyped : ∀ method ∈ methods, ∃ m info, method.WellTyped im.signature m info) :
    (∀ m ∈ methods.filterMap (·.binding), ∃ s : Nat, im.slot? m = some (s : Int) ∧ a ≤ s) ∧
      ((methods.filterMap (·.binding)).map im.slot?).Nodup := by
  induction methods generalizing a with
  | nil => exact ⟨by simp, List.nodup_nil⟩
  | cons method rest ih =>
    cases h with
    | cons hmethod hrest =>
      have hle := hrest.le
      obtain ⟨m, info, hwell⟩ := htyped method List.mem_cons_self
      have hlt := hmethod.lt (by omega) hwell
      have hslot := hmethod.slot (by omega) hwell
      obtain ⟨hstarts, hdistinct⟩ :=
        ih hrest fun other hmem => htyped other (List.mem_cons_of_mem _ hmem)
      rw [List.filterMap_cons_some hwell.bound]
      refine ⟨fun x hmem => ?_, List.nodup_cons.2 ⟨fun hmem => ?_, hdistinct⟩⟩
      · obtain rfl | hmem := List.mem_cons.1 hmem
        · exact ⟨a, hslot, Nat.le_refl a⟩
        · obtain ⟨s, hs, hle⟩ := hstarts x hmem
          exact ⟨s, hs, by omega⟩
      · obtain ⟨x, hmem, heq⟩ := List.mem_map.1 hmem
        obtain ⟨s, hs, hle⟩ := hstarts x hmem
        rw [hslot, hs] at heq
        have hsame := Option.some.inj heq
        omega

end MethodDef

namespace Package

variable {strict plain : Bool} {package : Package} {analysis : Analysis} {options : Options}
  {entry : SymbolId} {im : Image} {statics : Int} {a b : Nat}

/-- The code of `println` prints what it is given. -/
theorem Code.println_frames {rule : FrameRule}
    (h : package.Code im options analysis.builtins entry statics a b)
    (hresults : rule.results = 0) (hargs : rule.args = 1) :
    (im.frames rule).Stays (a + 4) (a + 7) Nowhere (a + 4) linkDataSize := by
  have hreturn := h.printlnReturn
  rw [← hresults, ← hargs] at hreturn
  have hload : (im.frames rule).Through (a + 4) (a + 5) Nowhere (a + 4) linkDataSize (a + 5)
      (linkDataSize + 1) := h.printlnArg.loads (Int.le_refl _) fun _ => by decide
  have hput : (im.frames rule).Through (a + 5) (a + 6) Nowhere (a + 5) (linkDataSize + 1) (a + 6)
      linkDataSize := h.printlnPut.primitiveShifts rfl (by decide) (by decide)
  exact (hload.trans hput).stays (hreturn.ends (by rw [hresults]; decide))

/-- No two methods start at one place. -/
theorem Code.separate {executable : Executable} {table : SymbolTable}
    (h : package.Code (executable.image table) options analysis.builtins entry statics a b)
    (hfits : b < 0x80000000) (htyped : package.WellTyped strict plain analysis)
    (hsig : table.signature = analysis.table.signature) : table.Separate := by
  obtain ⟨owner, hprintln⟩ := htyped.println.kind
  have hle := h.methods.le
  have hslot : table.slot? analysis.builtins.println = some ((a + 4 : Nat) : Int) := by
    rw [← Address.toOperand_of_lt (by omega)]
    exact h.printlnSlot (by
      rw [show (executable.image table).signature = analysis.table.signature from hsig]
      simp [hprintln])
  obtain ⟨hstarts, hdistinct⟩ := h.methods.slots hfits fun method hmem => by
    rw [show (executable.image table).signature = analysis.table.signature from hsig]
    exact htyped.methods method hmem
  have hcases : ∀ m, table.isMethod m = true →
      m = analysis.builtins.println ∨ m ∈ package.methods.filterMap (·.binding) := by
    intro m hmethod
    rw [← SymbolTable.signature_isMethod, hsig] at hmethod
    obtain ⟨info, hkind⟩ := analysis.table.signature.isMethod_iff.1 hmethod
    exact htyped.complete m info hkind
  have hafter : ∀ m ∈ package.methods.filterMap (·.binding),
      table.slot? m ≠ some ((a + 4 : Nat) : Int) := by
    intro m hmem heq
    obtain ⟨s, hs, hle⟩ := hstarts m hmem
    have hsame := Option.some.inj (hs.symm.trans heq)
    omega
  intro m m' d hmethod hmethod' hd hd'
  obtain rfl | hmem := hcases m hmethod
  · obtain rfl | hmem' := hcases m' hmethod'
    · rfl
    · exact absurd (by rw [hd', ← hd, hslot]) (hafter m' hmem')
  · obtain rfl | hmem' := hcases m' hmethod'
    · exact absurd (by rw [hd, ← hd', hslot]) (hafter m hmem)
    · exact List.inj_on_of_nodup_map hdistinct hmem hmem' (hd.trans hd'.symm)

/-- Each method is under its rule. -/
theorem WellTyped.governs {executable : Executable} {table : SymbolTable}
    (h : package.WellTyped true plain analysis) (hseparate : table.Separate)
    (hsig : table.signature = analysis.table.signature) (m : SymbolId) (info : MethodInfo) :
    (table.frameRule m).Governs (executable.image table)
      ⟨table.signature, info.owner, info.modifiers.isStatic, table.typeOf m, info.params⟩ where
  sig := rfl
  voidFree := by
    rw [hsig]
    exact h.voidFree
  links := fun _ _ _ hkind hslot => table.methodAt?_eq hseparate hkind hslot
  results := rfl

/-- In a well-typed program, the heights of the frame agree in every method. -/
theorem WellTyped.framed {executable : Executable} {table laidOut : SymbolTable}
    (h : package.WellTyped true true analysis) (hlaidOut : analysis.table.LaidOut laidOut statics)
    (hassigned : SymbolTable.Assigned laidOut table)
    (hcode : package.Code (executable.image table) options analysis.builtins entry statics a b)
    (hfits : b < 0x80000000) {m : SymbolId} {info : MethodInfo}
    (hkind : table.kind? m = some (.method info)) :
    ∃ start, table.slot? m = some start ∧
      ∃ height, executable.code.Framed table.signature (table.frameRule m) start height := by
  have hsig : table.signature = analysis.table.signature :=
    hassigned.signature.trans hlaidOut.assigned.signature
  have hseparate := hcode.separate hfits h hsig
  have hargs : (table.frameRule m).args = info.params.length := by
    rw [← SymbolTable.paramsOf_eq hkind]
    rfl
  have hkind' : analysis.table.kind? m = some (.method info) := by
    rwa [← SymbolTable.signature_kind?, ← hsig]
  have hle := hcode.methods.le
  obtain rfl | hmem := h.complete m info hkind'
  · have hslot := hcode.printlnSlot (Option.isSome_iff_exists.2 ⟨_, hkind⟩)
    rw [Address.toOperand_of_lt (by omega)] at hslot
    obtain ⟨owner, hprintln⟩ := h.println.kind
    obtain rfl : info = _ := by simpa using hkind'.symm.trans hprintln
    refine ⟨_, hslot, Code.exists_framed rfl (hcode.println_frames ?_ hargs)⟩
    have hvoid : table.typeOf analysis.builtins.println = .void := by
      rw [← SymbolTable.signature_typeOf, hsig]
      exact h.println.typeOf
    simp [SymbolTable.frameRule, hvoid, Ty.isVoid]
  · obtain ⟨method, hmethod, hbound⟩ := List.mem_filterMap.1 hmem
    obtain ⟨before, after, hsplit⟩ := List.append_of_mem hmethod
    have hmethods := hcode.methods
    rw [show package.classes.flatMap (·.methods) = _ from hsplit] at hmethods
    obtain ⟨s, e, hbody, hrest⟩ := hmethods.split
    have hle' := hrest.le
    obtain ⟨m', info', htyped⟩ := h.methods method hmethod
    obtain rfl : m' = m := Option.some.inj (htyped.bound.symm.trans hbound)
    obtain rfl : info' = info := by simpa using htyped.kind.symm.trans hkind'
    rw [← hsig] at htyped
    have hlt := hbody.lt (by omega) htyped
    refine ⟨_, hbody.slot (by omega) htyped, Code.exists_framed rfl
      (hbody.frames (by omega) htyped (h.plainUpdates rfl method hmethod)
        (h.governs hseparate hsig m' info') hargs ⟨by simp, fun i x hget => ?_, by simp⟩)⟩
    exact hassigned.slots _ _ (hlaidOut.params m' info' hkind' i x hget)

/-- The stack discipline of a program: if `void` is only what methods return and updates of
    loops declare nothing, then each place that a method gets to has one height of the frame.
    The method starts with the link data alone, which it never touches, every instruction
    finds what it takes and moves the height to that of all places that can come next, and
    returns leave the result and take the arguments away. -/
theorem stack_discipline {package package' : Package} {analysis : Analysis} {log : Diagnostic.Log}
    (hcheck : package.check .any = (.ok (package', analysis), log))
    (hvoid : package.avoidsVoid = true) (hplain : package.plainUpdates = true)
    (options : Options) :
    ∃ entry executable table, analysis.entry = some entry ∧
      package'.generate options analysis entry = (.ok executable, table) ∧
        (executable.code.size < 0x80000000 → ∀ m info, table.kind? m = some (.method info) →
          ∃ start, table.slot? m = some start ∧
            ∃ height, executable.code.Framed table.signature (table.frameRule m) start height) := by
  have htyped : package'.WellTyped true true analysis :=
    wellTyped_of_check hcheck (package.disciplined (fun _ => hplain) fun _ => hvoid)
  obtain ⟨method, -, -, entry, -, hentry⟩ := htyped.entry
  obtain ⟨executable, table, hgen⟩ := htyped.generates hentry options
  refine ⟨entry, executable, table, hentry, hgen, fun hfits m info hkind => ?_⟩
  obtain ⟨statics, a, laidOut, hlayout, -, hassigned, hcode⟩ := generate_code hgen
  obtain ⟨statics', laidOut', hlayout', hlaidOut⟩ := htyped.table.layout
  obtain ⟨rfl, rfl⟩ : statics' = statics ∧ laidOut' = laidOut := by
    simpa using hlayout'.symm.trans hlayout
  exact htyped.framed hlaidOut hassigned hcode hfits hkind

/-- The code of `picking` is short, with either option. -/
theorem picking_size {package' : Package} {analysis : Analysis} {log : Diagnostic.Log}
    {options : Options} {entry : SymbolId} {executable : Executable} {table : SymbolTable}
    (hcheck : picking.check .any = (.ok (package', analysis), log))
    (hentry : analysis.entry = some entry)
    (hgen : package'.generate options analysis entry = (.ok executable, table)) :
    executable.code.size < 100 := by
  have hrun : ∀ folding : Bool, ((picking.check .any).1.toOption.any fun checked =>
      checked.2.entry.any fun entry =>
        (checked.1.generate ⟨folding⟩ checked.2 entry).1.toOption.any fun executable =>
          decide (executable.code.size < 100)) = true := by
    decide +kernel
  have hrun := hrun options.foldConstants
  rw [hcheck] at hrun
  change (analysis.entry.any _) = true at hrun
  rw [hentry, Option.any_some] at hrun
  change (package'.generate options analysis entry).1.toOption.any _ = true at hrun
  rw [hgen] at hrun
  exact of_decide_eq_true hrun

/-- The local variable of `main` and the operands of its calls share the frame. -/
theorem stack_discipline_of_picking : ∃ package' analysis log entry executable table,
    picking.check .any = (.ok (package', analysis), log) ∧
      picking.avoidsVoid = true ∧ picking.plainUpdates = true ∧ analysis.entry = some entry ∧
        package'.generate {} analysis entry = (.ok executable, table) ∧
          ∀ m info, table.kind? m = some (.method info) → ∃ start, table.slot? m = some start ∧
            ∃ height, executable.code.Framed table.signature (table.frameRule m) start height := by
  obtain ⟨package', analysis, log, -, -, -, -, -, hcheck, -⟩ := picking_compiles {}
  obtain ⟨entry, executable, table, hentry, hgen, hframed⟩ :=
    stack_discipline hcheck (by decide) (by decide) {}
  have hsize := picking_size hcheck hentry hgen
  exact ⟨_, _, _, _, _, _, hcheck, by decide, by decide, hentry, hgen, hframed (by omega)⟩

end Package

end SmallJava
