import Mathlib.Tactic.IntervalCases
import SmallJava.Proofs.Linking.Placement
import SmallJava.Proofs.Scoping.Program

namespace SmallJava

open Gen

section Statics

/-- The plan for the fields of a class counts on by the number of its static fields. -/
theorem Signature.fieldPlan_statics (sig : Signature) (fields : List SymbolId) (statics own : Int) :
    (sig.fieldPlan statics own fields).2.1 = statics + (fields.map sig.isStatic).count true := by
  induction fields generalizing statics own with
  | nil => simp [fieldPlan]
  | cons field rest ih =>
    unfold fieldPlan
    cases hstatic : sig.isStatic field with
    | true =>
      simp only [↓reduceIte, ih, List.map_cons, hstatic, List.count_cons_self]
      omega
    | false => simp [ih, hstatic]

/-- The plan for the classes counts on by the number of all their static fields. -/
theorem Signature.classPlan_statics (sig : Signature) (classes : List SymbolId) (statics : Int) :
    (sig.classPlan statics classes).2 =
      statics + ((classes.map fun cls =>
        ((sig.classInfo cls).fields.map sig.isStatic).count true).sum : Nat) := by
  induction classes generalizing statics with
  | nil => simp [classPlan]
  | cons cls rest ih =>
    unfold classPlan
    simp only [ih, fieldPlan_statics, List.map_cons, List.sum_cons]
    omega

/-- The number of static fields, `System.out` included. -/
def Package.staticCount (package : Package) : Nat :=
  ((Builtins.classDefs ++ package.classes).map fun cls =>
    (cls.fields.map (·.modifiers.isStatic)).count true).sum

/-- The layout counts the static fields of all declared classes. -/
theorem Bindings.Describes.statics {b : Bindings} {classes : List ClassDef}
    (h : b.Describes classes) {statics : Int} {laidOut : SymbolTable}
    (hlayout : SlotWriter.layout b.table = .ok statics laidOut) :
    statics = ((classes.map fun cls =>
      (cls.fields.map (·.modifiers.isStatic)).count true).sum : Nat) := by
  have hclasses : ∀ c ∈ b.table.classes, ∃ info, b.table.kind? c = some (.cls info) := by
    intro c hmem
    obtain ⟨cls, -, hc⟩ := h.exists_of_mem_classes hmem
    obtain ⟨info, hkind, -⟩ := hc.info
    exact ⟨info, hkind⟩
  rw [SlotWriter.layout_eq b.table hclasses] at hlayout
  obtain ⟨_, _, -, hpure⟩ := bind_eq_ok_iff.1 hlayout
  obtain ⟨rfl, -⟩ := pure_eq_ok_iff.1 hpure
  rw [SlotWriter.plan, Signature.classPlan_statics, Int.zero_add]
  rw [map_eq_of_bindings h.order fun cls hcls c hbound => ?_]
  obtain ⟨c', hc'⟩ := h.declared cls hcls
  obtain rfl := Option.some.inj (hbound.symm.trans hc'.bound)
  obtain ⟨info, hkind, -⟩ := hc'.info
  have hinfo : b.table.signature.classInfo c = info := by
    simp [Signature.classInfo, hkind, SymbolKind.class?]
  rw [hinfo, map_eq_of_bindings (hc'.order info hkind) fun field hfield x => hc'.isStatic_eq hfield]

end Statics

namespace Gen

variable {s s' : GenState}

theorem prologue_eq_ok_iff {statics : Int} {entry : SymbolId} :
    prologue statics entry s = .ok () s' ↔
      { s with asm := (((((s.asm.setLine 0).push statics).literal 0).primitive .newarr).callLater
        .call entry).halt } = s' := by
  change EStateM.Result.ok _ _ = .ok _ _ ↔ _
  simp

/-- With static fields, the prologue is five words long. -/
theorem here_prologue {statics : Int} {entry : SymbolId} (hstatics : 0 < statics)
    (hprologue : prologue statics entry s = .ok () s') : s'.here = s.here + 5 := by
  obtain rfl := prologue_eq_ok_iff.1 hprologue
  have hlater : ∀ asm : Assembler, (asm.callLater .call entry).here = asm.here + 1 :=
    fun asm => Assembler.here_emit asm .call 0 .cb Instruction.unresolved
  have hpush : ∀ asm : Assembler, asm.push statics = asm.emit .push 0 .zr statics :=
    fun asm => if_pos hstatics
  simp only [GenState.here, Assembler.halt, Assembler.primitive, Assembler.literal, hpush,
    Assembler.here_emit, hlater]
  rfl

/-- The call of the entry method is noted, since no method has a slot yet. -/
theorem prologue_steps {statics : Int} {entry : SymbolId}
    (hprologue : prologue statics entry s = .ok () s')
    (hcalls : Instruction.Calls s.table.signature ⟨.call, 0, .cb, Instruction.unresolved⟩ entry)
    (hslot : s.table.slot? entry = none) : Draft.Steps s.here ⟨s, []⟩ ⟨s', []⟩ := by
  have hwires : Wires [] (do
      emit (·.setLine 0)
      emit (·.push statics)
      emit (·.literal 0)
      emit (·.primitive .newarr)) fun _ => [] := by
    refine (wires_setLine 0).bind fun _ => ?_
    refine (wires_push statics).bind fun _ => ?_
    refine (wires_literal 0).bind fun _ => ?_
    exact wires_primitive .newarr
  obtain rfl := prologue_eq_ok_iff.1 hprologue
  exact ((hwires rfl []).tail (.callLater hcalls hslot)).tail (.emit .halt rfl rfl)

/-- The body of `println` has no jumps. -/
theorem wires_printlnBody : Wires [] (do
    emit (·.load .lb (-1))
    emit (·.primitive .putintnl)
    emit (·.returnWith 0 1)) fun _ => [] := by
  refine (wires_load .lb (-1)).bind fun _ => ?_
  refine (wires_primitive .putintnl).bind fun _ => ?_
  exact wires_returnWith 0 1

end Gen

namespace GenState.Linked

variable {s : GenState} {code : Code}

/-- Of notes in the order of their addresses, the one for an address is found by this address. -/
private theorem find?_of_mem {notes : List Relocation} {note : Relocation}
    (hsorted : notes.Pairwise fun note note' => (note.address : Nat) < note'.address)
    (hmem : note ∈ notes) : notes.find? (·.address = note.address) = some note := by
  induction notes with
  | nil => cases hmem
  | cons first rest ih =>
    obtain ⟨hfirst, hsorted⟩ := List.pairwise_cons.1 hsorted
    obtain rfl | hmem := List.mem_cons.1 hmem
    · simp
    · rw [List.find?_cons_of_neg (by simpa using Nat.ne_of_lt (hfirst note hmem)), ih hsorted hmem]

/-- What becomes of an instruction when the noted calls are completed. -/
private theorem get?_finish (hnoted : s.asm.Noted) (hfinish : s.asm.finish s.table = .ok code) :
    code.size = s.here ∧ (∀ a : Nat, (∀ note ∈ s.asm.relocations, (note.address : Nat) ≠ a) →
      code.get? a = s.asm.code.get? a) ∧
    ∀ note ∈ s.asm.relocations, ∃ d, s.table.slot? note.target = some d ∧
      code.get? note.address = (s.asm.code.get? note.address).map ({ · with d }) := by
  unfold Assembler.finish at hfinish
  split at hfinish
  next u found hrelocate =>
    obtain rfl := Except.ok.inj hfinish
    obtain ⟨hsize, hplaced, hget⟩ := Code.get?_relocate hnoted.sorted hrelocate
    refine ⟨hsize, fun a hfree => ?_, fun note hmem => ?_⟩
    · have hnone : s.asm.relocations.find? (·.address = a) = none :=
        List.find?_eq_none.2 fun note hmem => by simpa using hfree note hmem
      rw [hget, hnone]
      simp
    · obtain ⟨d, hd⟩ := Option.isSome_iff_exists.1 (hplaced note hmem)
      refine ⟨d, hd, ?_⟩
      rw [hget, find?_of_mem hnoted.sorted hmem]
      simp [hd]
  next => cases hfinish

/-- In finished code, a noted call leads to a method that starts after it. -/
theorem note_of_finish (h : s.Linked) (hnoted : s.asm.Noted)
    (hfinish : s.asm.finish s.table = .ok code) {note : Relocation}
    (hmem : note ∈ s.asm.relocations) :
    ∃ (instr : Instruction) (n : Nat), code.get? note.address = some instr ∧
      instr.Calls s.table.signature note.target ∧ s.table.slot? note.target = some instr.d ∧
      (note.address : Nat) < n ∧ n ≤ s.here ∧ instr.d = Address.toOperand n := by
  obtain ⟨-, -, hnotes⟩ := get?_finish hnoted hfinish
  obtain ⟨d, hslot, hget⟩ := hnotes note hmem
  obtain ⟨⟨instr, hold, hcalls⟩, hlate⟩ := h.notes note hmem
  obtain ⟨n, hlt, hle, hd⟩ := hlate d hslot
  rw [hold] at hget
  exact ⟨_, n, hget, hcalls.withOperand d, hslot, hlt, hle, hd⟩

/-- In finished code, every call leads to a method, and the noted calls are those of methods
    that start after the call. -/
theorem call_of_finish (h : s.Linked) (hnoted : s.asm.Noted)
    (hfinish : s.asm.finish s.table = .ok code) {a : Nat} {instr : Instruction}
    (hget : code.get? a = some instr) (hcall : instr.isCall = true) :
    ∃ (x : SymbolId) (n : Nat), instr.Calls s.table.signature x ∧
      s.table.slot? x = some instr.d ∧ n ≤ s.here ∧ instr.d = Address.toOperand n ∧
      ((∃ note ∈ s.asm.relocations, (note.address : Nat) = a) ↔ a < n) := by
  obtain ⟨hsize, hkept, -⟩ := get?_finish hnoted hfinish
  by_cases hmem : ∃ note ∈ s.asm.relocations, (note.address : Nat) = a
  · obtain ⟨note, hin, rfl⟩ := hmem
    obtain ⟨found, n, hfound, hcalls, hslot, hlt, hle, hd⟩ := h.note_of_finish hnoted hfinish hin
    obtain rfl := Option.some.inj (hget.symm.trans hfound)
    exact ⟨_, n, hcalls, hslot, hle, hd, iff_of_true ⟨note, hin, rfl⟩ hlt⟩
  · have hfree : ∀ note ∈ s.asm.relocations, (note.address : Nat) ≠ a :=
      fun note hin heq => hmem ⟨note, hin, heq⟩
    obtain ⟨x, n, hcalls, hslot, hle, hd⟩ :=
      h.calls a instr ((hkept a hfree).symm.trans hget) hcall hfree
    have hlt : a < s.here := hsize ▸ Code.lt_size_of_get? hget
    exact ⟨x, n, hcalls, hslot, by omega, hd, iff_of_false hmem (Nat.not_lt.2 hle)⟩

/-- Jumps are complete before the noted calls are completed. -/
theorem jump_of_finish (h : s.Linked) (hnoted : s.asm.Noted)
    (hfinish : s.asm.finish s.table = .ok code) {a : Nat} {instr : Instruction}
    (hget : code.get? a = some instr) (hjump : instr.isJump = true) :
    s.asm.code.get? a = some instr := by
  obtain ⟨-, hkept, hnotes⟩ := get?_finish hnoted hfinish
  rw [← hkept a fun note hmem heq => ?_]
  · exact hget
  · subst heq
    obtain ⟨found, -, hfound, hcalls, -⟩ := h.note_of_finish hnoted hfinish hmem
    obtain rfl := Option.some.inj (hget.symm.trans hfound)
    simpa [hcalls.isCall] using Instruction.isCall_of_isJump hjump

end GenState.Linked

/-- The methods of all classes that are declared, `println` first. -/
def Package.declaredMethods (package : Package) : List MethodDef :=
  (Builtins.classDefs ++ package.classes).flatMap (·.methods)

/-- What the declarations say of methods. -/
structure Package.DeclaresMethods (package : Package) (table : SymbolTable) : Prop where
  bound : ∀ method ∈ package.declaredMethods, ∃ x, method.binding = some x ∧
    table.isMethod x = true ∧ table.isStatic x = method.modifiers.isStatic
  cover : ∀ x, table.isMethod x = true → ∃ method ∈ package.declaredMethods, method.binding = some x

/-- Bindings that describe the classes say of every method what the program says. -/
theorem Bindings.Describes.declaresMethods {b : Bindings} {package : Package}
    (h : b.Describes (Builtins.classDefs ++ package.classes)) :
    package.DeclaresMethods b.table where
  bound := by
    intro method hmem
    obtain ⟨cls, hcls, hmethod⟩ := List.mem_flatMap.1 hmem
    obtain ⟨c, hc⟩ := h.declared cls hcls
    obtain ⟨x, params, hx⟩ := hc.methods method hmethod
    exact ⟨x, hx.bound, b.table.signature.isMethod_iff.2 ⟨_, hx.kind⟩,
      b.table.signature.isStatic_of_method hx.kind⟩
  cover := by
    intro x hx
    obtain ⟨cls, hcls, method, hmethod, hbound⟩ := h.methods x hx
    exact ⟨method, List.mem_flatMap.2 ⟨cls, hcls, hmethod⟩, hbound⟩

/-- `println` is a declared method. -/
theorem Package.DeclaresMethods.println {package : Package} {table : SymbolTable}
    (h : package.DeclaresMethods table) :
    table.isMethod Bindings.initial.builtins.println = true := by
  obtain ⟨x, hbound, hmethod, -⟩ := h.bound _ (List.mem_flatMap.2
    ⟨_, List.mem_append_left _ (List.mem_cons_of_mem _ (.head _)), .head _⟩)
  obtain rfl := Option.some.inj hbound
  exact hmethod

/-- What is said of methods is part of the signature. -/
theorem Package.DeclaresMethods.congr {package : Package} {table table' : SymbolTable}
    (h : package.DeclaresMethods table) (hsig : table'.signature = table.signature) :
    package.DeclaresMethods table' := by
  obtain ⟨hbound, hcover⟩ := h
  rw [← SymbolTable.signature_isMethod, ← hsig] at hcover
  rw [← SymbolTable.signature_isMethod, ← SymbolTable.signature_isStatic, ← hsig] at hbound
  exact ⟨hbound, hcover⟩

/-- The only method that is declared but not written is `println`. -/
theorem Package.mem_declaredMethods {package : Package} {method : MethodDef} {x : SymbolId}
    (hmem : method ∈ package.declaredMethods) (hbound : method.binding = some x) :
    x = Bindings.initial.builtins.println ∨ method ∈ package.methods := by
  obtain ⟨cls, hcls, hmethod⟩ := List.mem_flatMap.1 hmem
  obtain hcls | hcls := List.mem_append.1 hcls
  · simp only [Builtins.classDefs, List.mem_cons, List.not_mem_nil, or_false] at hcls
    obtain rfl | rfl | rfl := hcls
    · cases hmethod
    · obtain rfl := List.mem_singleton.1 hmethod
      exact .inl (Option.some.inj hbound).symm
    · cases hmethod
  · exact .inr (List.mem_flatMap.2 ⟨cls, hcls, hmethod⟩)

namespace Package

variable {package : Package} {analysis : Analysis} {options : Options} {entry : SymbolId}
  {executable : Executable} {table : SymbolTable}

/-- The entry method is the first one that is written as such. -/
theorem entry_of_analyze {package : Package}
    (hanalysis : package.analyze.analysis? = some analysis) (hentry : analysis.entry = some entry) :
    ∃ method ∈ package.analyze.package.methods, method.binding = some entry ∧
      method.modifiers.isStatic = true := by
  have hfound : analysis.entry = package.analyze.package.entryMethod?.bind (·.binding) := by
    unfold analyze at hanalysis ⊢
    split at hanalysis
    next => cases hanalysis
    next =>
      obtain rfl := Option.some.inj hanalysis
      rfl
  rw [hfound] at hentry
  obtain ⟨method, hfind, hbound⟩ := Option.bind_eq_some_iff.1 hentry
  have hsignature := List.find?_some hfind
  simp only [MethodDef.hasEntrySignature, Bool.and_eq_true] at hsignature
  exact ⟨method, List.mem_of_find?_eq_some hfind, hbound, hsignature.1.1.2⟩

section Run

variable {statics : Int} {laidOut : SymbolTable} {s₁ s₂ s₃ : GenState}

/-- From the prologue to the last method, the code is laid down without gaps, and all calls
    are right. -/
theorem linked_of_runs (hdeclares : package.DeclaresMethods laidOut)
    (hentry : ∃ method ∈ package.methods, method.binding = some entry ∧
      method.modifiers.isStatic = true) (hstatics : 0 < statics)
    (hprologue : prologue statics entry { table := laidOut } = .ok () s₁)
    (hprintln : printlnBody Bindings.initial.builtins.println s₁ = .ok () s₂)
    (hmethods : MethodDef.genAll options package.methods s₂ = .ok () s₃) :
    s₃.Linked ∧ SymbolTable.Assigned laidOut s₃.table ∧
      s₃.table.slot? Bindings.initial.builtins.println = some (Address.toOperand 5) ∧
      MethodDef.Spans (MethodDef.Stands s₃) package.methods 8 s₃.here := by
  have hhere₁ : s₁.here = 5 := here_prologue hstatics hprologue
  have hhere₂ : s₂.here = 8 := by rw [(printlnBody_emits hprintln).1, hhere₁]
  have htable₁ : s₁.table = laidOut := by rw [← prologue_eq_ok_iff.1 hprologue]
  obtain ⟨hfree, hcontinues⟩ := place_continues wires_printlnBody hprintln
  have hcover : ∀ x, laidOut.isMethod x = true → x = Bindings.initial.builtins.println ∨
      ∃ method ∈ package.methods, method.binding = some x := by
    intro x hx
    obtain ⟨method, hmem, hbound⟩ := hdeclares.cover x hx
    exact (mem_declaredMethods hmem hbound).imp_right fun hmem => ⟨method, hmem, hbound⟩
  have hlate : ∀ method ∈ package.methods, ∀ x, method.binding = some x →
      s₂.table.slot? x = none :=
    fun method hmem x hbound => MethodDef.slot?_of_genAll hmethods hmem hbound
  have hnone : ∀ x, laidOut.isMethod x = true → laidOut.slot? x = none := by
    intro x hx
    rw [← htable₁]
    obtain rfl | ⟨method, hmem, hbound⟩ := hcover x hx
    · exact hfree
    · exact hcontinues.slot?_eq_none (hlate method hmem x hbound)
  have hdeclared : ∀ method ∈ package.methods, ∀ x, method.binding = some x →
      laidOut.isMethod x = true ∧ laidOut.isStatic x = method.modifiers.isStatic := by
    intro method hmem x hbound
    obtain ⟨cls, hcls, hmem⟩ := List.mem_flatMap.1 hmem
    obtain ⟨y, hbound', hy⟩ := hdeclares.bound method
      (List.mem_flatMap.2 ⟨cls, List.mem_append_right _ hcls, hmem⟩)
    obtain rfl := Option.some.inj (hbound.symm.trans hbound')
    exact hy
  obtain ⟨main, hmain, hbound, hstatic⟩ := hentry
  obtain ⟨hmethod, hsame⟩ := hdeclared main hmain entry hbound
  have hstart : GenState.Linked { table := laidOut } :=
    ⟨fun x d hx hslot => by simp [hnone x hx] at hslot, nofun, nofun⟩
  have hsteps := prologue_steps hprologue ⟨rfl, hmethod, by simp [hsame, hstatic]⟩ (hnone entry hmethod)
  have hlinked₁ : s₁.Linked :=
    Draft.Steps.linked hsteps (.start _) hstart fun x hx => .inr (htable₁ ▸ hnone x hx)
  obtain ⟨hlinked₂, hslot, -⟩ := place_linked wires_printlnBody hprintln
    (htable₁ ▸ hdeclares.println) hlinked₁ fun y hy => by
      obtain rfl | ⟨method, hmem, hbound⟩ := hcover y (htable₁ ▸ hy)
      · exact .inr (.inl rfl)
      · exact .inr (.inr (hlate method hmem y hbound))
  have hsame₂ : ∀ x, s₂.table.isMethod x = laidOut.isMethod x := by
    intro x
    rw [hcontinues.isMethod, htable₁]
  obtain ⟨hlinked₃, hcontinues₃, hspans⟩ := MethodDef.genAll_linked hmethods
    (fun method hmem x hbound => (hsame₂ x).trans (hdeclared method hmem x hbound).1) hlinked₂
    fun x hx => by
      obtain rfl | hfound := hcover x ((hsame₂ x).symm.trans hx)
      · exact .inl (by simp [hslot])
      · exact .inr hfound
  rw [hhere₁] at hslot
  rw [hhere₂] at hspans
  exact ⟨hlinked₃, htable₁ ▸ hcontinues.assigned.trans hcontinues₃.assigned,
    hcontinues₃.assigned.slots _ _ hslot, hspans⟩

end Run

end Package

/-- The instruction calls the method where it starts, without an object exactly if the method
    is static. -/
structure Instruction.Invokes (table : SymbolTable) (instr : Instruction) (method : MethodDef) :
    Prop where
  start : table.startOf method = some instr.d
  static : instr.op = .call ↔ method.modifiers.isStatic = true

/-- The code of a method stands between the addresses, the first of which is its slot, and its
    jumps lead to places between them. -/
structure Executable.Holds (executable : Executable) (table : SymbolTable) (method : MethodDef)
    (a b : Nat) : Prop where
  le : a ≤ b
  start : table.startOf method = some (a : Int)
  jumps : ∀ (x : Nat) instr, a ≤ x → x < b → executable.code.get? x = some instr →
    instr.isJump = true → a ≤ instr.d ∧ instr.d ≤ b

/-- Where everything is in a generated program: the prologue, `println`, and the methods in the
    order of their declarations, which the calls lead to. The calls that were completed last are
    those of methods that start after the call. -/
structure Package.Linked (package : Package) (entry : SymbolId) (executable : Executable)
    (table : SymbolTable) : Prop where
  reserve : executable.code.get? 0 = some (.push package.staticCount)
  length : executable.code.get? 1 = some (.literal 0)
  array : executable.code.get? 2 = some (.primitive .newarr)
  entry : ∃ start, table.slot? entry = some start ∧ executable.code.get? 3 = some (.call start)
  halt : executable.code.get? 4 = some .halt
  println : table.slot? Bindings.initial.builtins.println = some 5
  printlnArg : executable.code.get? 5 = some (.load .lb (-1))
  printlnPut : executable.code.get? 6 = some (.primitive .putintnl)
  printlnReturn : executable.code.get? 7 = some (.returnWith 0 1)
  methods : MethodDef.Spans (executable.Holds table) package.methods 8 executable.code.size
  resolved : executable.hasUnresolved = false
  calls : ∀ (a : Nat) instr, executable.code.get? a = some instr → instr.isCall = true →
    (∃ method ∈ package.declaredMethods, instr.Invokes table method) ∧
      ((∃ note ∈ executable.relocations, (note.address : Nat) = a) ↔ a < instr.d)
  sorted : executable.relocations.Pairwise fun note note' => (note.address : Nat) < note'.address
  notes : ∀ note ∈ executable.relocations, ∃ instr,
    executable.code.get? note.address = some instr ∧ instr.isCall = true ∧
      ∃ method ∈ package.declaredMethods, method.binding = some note.target ∧
        instr.Invokes table method

theorem Code.exists_of_mem {code : Code} {instr : Instruction} (hmem : instr ∈ code.instructions) :
    ∃ a : Nat, code.get? a = some instr := by
  obtain ⟨cell, hcell, rfl⟩ := List.mem_map.1 hmem
  obtain ⟨a, hlt, rfl⟩ := Array.getElem_of_mem (Array.mem_toList_iff.1 hcell)
  exact ⟨a, by simp [Code.get?, hlt]⟩

/-- What waits for its target is a jump or a call. -/
theorem Instruction.isJump_or_isCall {instr : Instruction} (h : instr.isUnresolved = true) :
    (instr.isJump = true ∨ instr.isCall = true) ∧ instr.d = -1 := by
  unfold isUnresolved at h
  unfold isJump isCall
  simp only [Bool.and_eq_true, beq_iff_eq] at h
  obtain ⟨⟨hop, hr⟩, hd⟩ := h
  refine ⟨?_, hd⟩
  split at hop
  all_goals simp_all

namespace Package

/-- The calls of a program lead to the methods that are declared. -/
theorem DeclaresMethods.invokes {package : Package} {table : SymbolTable}
    (h : package.DeclaresMethods table) {instr : Instruction} {x : SymbolId}
    (hcalls : instr.Calls table.signature x) (hslot : table.slot? x = some instr.d) :
    ∃ method ∈ package.declaredMethods, method.binding = some x ∧ instr.Invokes table method := by
  obtain ⟨method, hmem, hbound⟩ := h.cover x hcalls.isMethod
  obtain ⟨y, hbound', -, hstatic⟩ := h.bound method hmem
  obtain rfl := Option.some.inj (hbound.symm.trans hbound')
  refine ⟨method, hmem, hbound, ?_, ?_⟩
  · rw [SymbolTable.startOf, hbound]
    exact hslot
  · rw [← hstatic]
    exact hcalls.static

/-- A program has no gaps and no loose ends: its parts stand one after the other, every jump
    leads into its own method, every call to the start of a method, and the calls that were
    noted are those of methods that start after the call. This holds for every package whose
    analysis is not cut short, whatever mistakes in types are reported, as long as the code is
    short enough for its addresses to be operands. -/
theorem generate_linked (package : Package) {analysis : Analysis} {options : Options}
    {entry : SymbolId} {executable : Executable} {table : SymbolTable}
    (hanalysis : package.analyze.analysis? = some analysis) (hentry : analysis.entry = some entry)
    (hgen : package.analyze.package.generate options analysis entry = (.ok executable, table))
    (hfits : executable.code.size < 0x80000000) :
    package.analyze.package.Linked entry executable table := by
  obtain ⟨b, htable, hbuiltins, hdescribes⟩ := analyze_describes hanalysis
  have hprintlnId : analysis.builtins.println = Bindings.initial.builtins.println := by
    rw [← hbuiltins, hdescribes.builtins]
  obtain ⟨statics, laidOut, s₁, s₂, s₃, hlaidOut, hprologue, hprintln, hmethods, hfinish, hnotes, rfl⟩ :=
    generate_runs hgen
  obtain ⟨statics', a, laidOut', hlaidOut', -, -, hcode⟩ := generate_code hgen
  obtain ⟨rfl, rfl⟩ := EStateM.Result.ok.inj (hlaidOut.symm.trans hlaidOut')
  have hstatics : statics = (package.analyze.package.staticCount : Int) :=
    hdescribes.statics (htable ▸ hlaidOut)
  have hpos : 0 < statics := by
    have hcount : 1 ≤ package.analyze.package.staticCount := by
      unfold staticCount
      simp only [List.map_append, List.sum_append]
      exact Nat.le_add_right_of_le (by decide)
    omega
  have hdeclares : package.analyze.package.DeclaresMethods laidOut := by
    refine hdescribes.declaresMethods.congr ?_
    rw [htable]
    exact (SlotWriter.assigned_of_layout hlaidOut).signature
  rw [hprintlnId] at hprintln
  obtain ⟨hlinked, hassigned, hslot, hspans⟩ := linked_of_runs hdeclares
    (entry_of_analyze hanalysis hentry) hpos hprologue hprintln hmethods
  replace hdeclares := hdeclares.congr hassigned.signature
  have hnoted : s₃.asm.Noted := ((prologue_emits hprologue).trans
    ((printlnBody_emits hprintln).2.trans (MethodDef.genAll_emits hmethods))).noted
      ⟨by simp, List.Pairwise.nil⟩
  obtain ⟨hsize, -, -⟩ := GenState.Linked.get?_finish hnoted hfinish
  have hoperand : ∀ n : Nat, n ≤ s₃.here → Address.toOperand n = (n : Int) :=
    fun n hle => Address.toOperand_of_lt (by omega)
  have hcalls : ∀ (a : Nat) instr, executable.code.get? a = some instr → instr.isCall = true →
      (∃ method ∈ package.analyze.package.declaredMethods, instr.Invokes s₃.table method) ∧
        ((∃ note ∈ executable.relocations, (note.address : Nat) = a) ↔ a < instr.d) ∧
          0 ≤ instr.d := by
    intro a instr hget hcall
    obtain ⟨x, n, hcalls, hslot, hle, hd, hiff⟩ := hlinked.call_of_finish hnoted hfinish hget hcall
    obtain ⟨method, hmem, -, hinvokes⟩ := hdeclares.invokes hcalls hslot
    rw [hnotes, hd, hoperand n hle]
    refine ⟨⟨method, hmem, hinvokes⟩, ?_, by omega⟩
    rw [hiff]
    omega
  have hholds : MethodDef.Spans (executable.Holds s₃.table) package.analyze.package.methods 8
      executable.code.size := by
    rw [hsize]
    refine hspans.imp (fun _ _ _ h => h.le) fun method x y hle h => ?_
    have hle' := h.le
    refine ⟨h.le, ?_, fun z instr hlo hhi hget hjump => ?_⟩
    · rw [h.slot, hoperand x (by omega)]
    · obtain ⟨t, hlo, hhi, hd⟩ :=
        h.jumps z instr hlo hhi (hlinked.jump_of_finish hnoted hfinish hget hjump) hjump
      rw [hd, hoperand t (by omega)]
      omega
  obtain ⟨hreserve, hlength, harray, hentryCall, hhalt, -, harg, hput, hreturn, -⟩ := hcode
  rcases hreserve with ⟨-, hpush⟩ | hnone
  swap
  · omega
  have hjumps : ∀ (a : Nat) instr, executable.code.get? a = some instr → instr.isJump = true →
      0 ≤ instr.d := by
    intro a instr hget hjump
    by_cases hbefore : a < 8
    · obtain ⟨start, -, hcallEntry⟩ := hentryCall
      have hplain : ∀ found, executable.code.get? a = some found → found.isJump = false → False := by
        intro found hfound hnone
        obtain rfl := Option.some.inj (hget.symm.trans hfound)
        exact absurd (hjump.symm.trans hnone) (by simp)
      exfalso
      interval_cases a
      · exact hplain _ hpush rfl
      · exact hplain _ hlength rfl
      · exact hplain _ harray rfl
      · exact hplain _ hcallEntry rfl
      · exact hplain _ hhalt rfl
      · exact hplain _ harg rfl
      · exact hplain _ hput rfl
      · exact hplain _ hreturn rfl
    · obtain ⟨method, c, d, hmethod, hlo, hhi⟩ :=
        hholds.exists_of_lt (Nat.le_of_not_lt hbefore) (Code.lt_size_of_get? hget)
      have hbounds := hmethod.jumps a instr hlo hhi hget hjump
      omega
  refine ⟨hstatics ▸ hpush, hlength, harray, hentryCall, hhalt, hslot, harg, hput, hreturn, hholds,
    ?_, fun a instr hget hcall => ?_, hnotes ▸ hnoted.sorted, fun note hmem => ?_⟩
  · refine Bool.eq_false_iff.2 fun hany => ?_
    obtain ⟨instr, hmem, hunresolved⟩ := List.any_eq_true.1 hany
    obtain ⟨a, hget⟩ := Code.exists_of_mem hmem
    obtain ⟨hjump | hcall, hd⟩ := Instruction.isJump_or_isCall hunresolved
    · have := hjumps a instr hget hjump
      omega
    · have := (hcalls a instr hget hcall).2.2
      omega
  · exact ⟨(hcalls a instr hget hcall).1, (hcalls a instr hget hcall).2.1⟩
  · rw [hnotes] at hmem
    obtain ⟨instr, n, hget, hcalls, hslot, -⟩ := hlinked.note_of_finish hnoted hfinish hmem
    exact ⟨instr, hget, hcalls.isCall, hdeclares.invokes hcalls hslot⟩

/-- The condition of the loop has the wrong type, which no address depends on. -/
theorem shadowing_linked : ∃ analysis entry executable table,
    shadowing.analyze.analysis? = some analysis ∧ analysis.entry = some entry ∧
      shadowing.analyze.package.generate {} analysis entry = (.ok executable, table) ∧
        executable.code.size < 0x80000000 ∧
          shadowing.analyze.package.Linked entry executable table := by
  have hrun : (shadowing.analyze.analysis?.any fun analysis => analysis.entry.any fun entry =>
      (shadowing.analyze.package.generate {} analysis entry).1.toOption.any fun executable =>
        decide (executable.code.size < 0x80000000)) = true := by
    decide +kernel
  obtain ⟨analysis, hanalysis, hrun⟩ := (Option.any_eq_true ..).1 hrun
  obtain ⟨entry, hentry, hrun⟩ := (Option.any_eq_true ..).1 hrun
  obtain ⟨executable, table, hgen, hrun⟩ := exists_ok_of_any hrun
  have hfits := of_decide_eq_true hrun
  exact ⟨_, _, _, _, hanalysis, hentry, hgen, hfits,
    generate_linked shadowing hanalysis hentry hgen hfits⟩

end Package

end SmallJava
