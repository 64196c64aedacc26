import SmallJava.Proofs.Execution.Answers

namespace SmallJava

namespace Signature

variable (sig : Signature)

/-- The static fields of classes, in the order in which these are declared. -/
def staticFields (classes : List SymbolId) : List SymbolId :=
  classes.flatMap fun cls => (sig.classInfo cls).fields.filter sig.isStatic

/-- Static fields and instance fields are numbered apart, each in the order of the class. -/
theorem fieldPlan_numbers (fields : List SymbolId) (statics own : Int) :
    (sig.fieldPlan statics own fields).2.1 = statics + (fields.filter sig.isStatic).length ∧
      (∀ (i : Nat) x, (fields.filter sig.isStatic)[i]? = some x →
        (x, statics + i) ∈ (sig.fieldPlan statics own fields).1) ∧
      ∀ (i : Nat) x, (fields.filter (!sig.isStatic ·))[i]? = some x →
        (x, own + i) ∈ (sig.fieldPlan statics own fields).1 := by
  induction fields generalizing statics own with
  | nil => simp [fieldPlan]
  | cons field rest ih =>
    unfold fieldPlan
    cases hstatic : sig.isStatic field with
    | true =>
      obtain ⟨hcount, hstatics, hown⟩ := ih (statics + 1) own
      simp only [if_true, List.filter_cons, hstatic, Bool.not_true, Bool.false_eq_true, if_false]
      refine ⟨by rw [hcount, List.length_cons]; omega, fun i x hget => ?_,
        fun i x hget => List.mem_cons_of_mem _ (hown i x hget)⟩
      cases i with
      | zero =>
        obtain rfl : field = x := by simpa using hget
        simp
      | succ i =>
        have hmem := hstatics i x (by simpa using hget)
        rw [show statics + 1 + (i : Int) = statics + (i + 1 : Nat) by omega] at hmem
        exact List.mem_cons_of_mem _ hmem
    | false =>
      obtain ⟨hcount, hstatics, hown⟩ := ih statics (own + 1)
      simp only [if_true, List.filter_cons, hstatic, Bool.not_false, Bool.false_eq_true, if_false]
      refine ⟨hcount, fun i x hget => List.mem_cons_of_mem _ (hstatics i x hget), fun i x hget => ?_⟩
      cases i with
      | zero =>
        obtain rfl : field = x := by simpa using hget
        simp
      | succ i =>
        have hmem := hown i x (by simpa using hget)
        rw [show own + 1 + (i : Int) = own + (i + 1 : Nat) by omega] at hmem
        exact List.mem_cons_of_mem _ hmem

/-- Static fields are numbered across classes, in their order. -/
theorem classPlan_numbers (classes : List SymbolId) (statics : Int) :
    (sig.classPlan statics classes).2 = statics + (sig.staticFields classes).length ∧
      ∀ (i : Nat) x, (sig.staticFields classes)[i]? = some x →
        (x, statics + i) ∈ (sig.classPlan statics classes).1 := by
  induction classes generalizing statics with
  | nil => simp [classPlan, staticFields]
  | cons cls rest ih =>
    obtain ⟨hcount, hnumbers, -⟩ := sig.fieldPlan_numbers (sig.classInfo cls).fields statics 0
    obtain ⟨hcount', hnumbers'⟩ := ih (sig.fieldPlan statics 0 (sig.classInfo cls).fields).2.1
    have hsplit : sig.staticFields (cls :: rest) =
        (sig.classInfo cls).fields.filter sig.isStatic ++ sig.staticFields rest := List.flatMap_cons
    rw [hsplit, List.length_append]
    simp only [classPlan]
    refine ⟨by omega, fun i x hget => ?_⟩
    obtain hlt | hge := Nat.lt_or_ge i ((sig.classInfo cls).fields.filter sig.isStatic).length
    · rw [List.getElem?_append_left hlt] at hget
      simp [hnumbers i x hget]
    · rw [List.getElem?_append_right hge] at hget
      have hplace : (sig.fieldPlan statics 0 (sig.classInfo cls).fields).2.1 +
          ((i - ((sig.classInfo cls).fields.filter sig.isStatic).length : Nat) : Int) = statics + i := by
        omega
      have hmem := hnumbers' _ x hget
      rw [hplace] at hmem
      simp [hmem]

/-- Instance fields are numbered within their class. -/
theorem mem_classPlan_own (classes : List SymbolId) (statics : Int) {cls x : SymbolId}
    (hcls : cls ∈ classes) {i : Nat} (hget : (sig.instanceFields cls)[i]? = some x) :
    (x, (i : Int)) ∈ (sig.classPlan statics classes).1 := by
  induction classes generalizing statics with
  | nil => cases hcls
  | cons first rest ih =>
    simp only [classPlan, List.mem_append, List.mem_cons]
    obtain rfl | hcls := List.mem_cons.1 hcls
    · obtain ⟨-, -, hnumbers⟩ := sig.fieldPlan_numbers (sig.classInfo cls).fields statics 0
      have hmem := hnumbers i x hget
      rw [Int.zero_add] at hmem
      exact .inl (.inl hmem)
    · exact .inr (ih _ hcls)

end Signature

namespace SymbolTable.WellFormed

variable {table laidOut : SymbolTable} {strict : Bool} {statics : Int} {im : Image}

/-- The layout of well-formed declarations puts everything where it is looked for. -/
theorem stores (h : table.WellFormed strict) (hlayout : SlotWriter.layout table = .ok statics laidOut)
    (hsig : im.signature = table.signature)
    (hslots : ∀ x d, laidOut.slot? x = some d → im.slot? x = some d) :
    statics = (table.signature.staticFields table.classes).length ∧
      im.Stores (table.signature.staticFields table.classes) := by
  obtain ⟨rfl, hplaced, -⟩ := h.placed_of_layout hlayout
  obtain ⟨hcount, hnumbers⟩ := table.signature.classPlan_numbers table.classes 0
  rw [Int.zero_add] at hcount
  refine ⟨hcount, fun i x hget => ?_, fun x cls modifiers hkind hstatic => ?_,
    fun x cls modifiers hkind hstatic => ?_, fun c info hcls => ?_, fun m => ?_⟩
  · have hmem := hnumbers i x hget
    rw [Int.zero_add] at hmem
    obtain ⟨cls, hcls, hfield⟩ := List.mem_flatMap.1 (List.mem_of_getElem? hget)
    obtain ⟨info, hcls⟩ := (h.classes cls).1 hcls
    rw [classInfo_eq hcls] at hfield
    obtain ⟨modifiers, hkind⟩ := h.exists_of_mem_fields hcls (List.mem_filter.1 hfield).1
    exact hslots x _ (hplaced x _ hmem (by simp [hkind]))
  · rw [hsig] at hkind
    obtain ⟨hcls, hfield⟩ := h.mem_fields hkind
    refine List.mem_flatMap.2 ⟨cls, hcls, List.mem_filter.2 ⟨hfield, ?_⟩⟩
    rw [Signature.isStatic_of_field _ hkind, hstatic]
  · rw [hsig] at hkind ⊢
    obtain ⟨hcls, -⟩ := h.mem_fields hkind
    have hown := h.mem_instanceFields hkind hstatic
    have hget : (table.signature.instanceFields cls)[(table.signature.instanceFields cls).idxOf x]? =
        some x := by
      rw [List.getElem?_eq_getElem (List.idxOf_lt_length_of_mem hown), List.getElem_idxOf]
    exact hslots x _ (hplaced x _ (table.signature.mem_classPlan_own table.classes 0 hcls hget)
      (by simpa using congrArg Option.isSome hkind))
  · rw [hsig] at hcls ⊢
    exact hslots c _ (h.instances hlayout hcls).1
  · rw [hsig]
    cases hkind : table.signature.kind? m with
    | none => simp [Signature.paramsOf, hkind]
    | some kind =>
      cases kind with
      | method info =>
        rw [paramsOf_eq hkind]
        exact h.nodup_params hkind
      | _ => simp [Signature.paramsOf, hkind, SymbolKind.method?]

end SymbolTable.WellFormed

namespace Package

variable {package : Package} {analysis : Analysis} {options : Options} {entry : SymbolId}
  {executable : Executable} {table : SymbolTable}

/-- A well-typed program is in memory as it was generated, if its addresses are operands. -/
theorem WellTyped.loaded (h : package.WellTyped true true analysis)
    (hgen : package.generate options analysis entry = (.ok executable, table))
    (hfits : executable.code.size < 0x80000000) :
    ∃ a, package.Loaded analysis (executable.image table) options entry
      (analysis.table.signature.staticFields analysis.table.classes) a executable.code.size := by
  obtain ⟨statics, a, laidOut, hlayout, -, hassigned, hcode⟩ := generate_code hgen
  have hlaidOut := h.table.laidOut_of_layout hlayout
  have hsig : table.signature = analysis.table.signature :=
    hassigned.signature.trans hlaidOut.assigned.signature
  have hsig' : (executable.image table).signature = analysis.table.signature := hsig
  obtain ⟨rfl, hstores⟩ := h.table.stores hlayout hsig' hassigned.slots
  refine ⟨a, h, hsig, hcode, hfits, hstores,
    fun m info hkind => ⟨by simp, fun i x hget => ?_, by simp⟩⟩
  have hkind' : analysis.table.signature.kind? m = some (.method info) := hsig ▸ hkind
  exact hassigned.slots _ _ (hlaidOut.params m info hkind' i x hget)

end Package

end SmallJava
