import SmallJava.Symbol.Table

namespace SmallJava

/-- What the declarations say of symbols, apart from where these are stored. -/
@[ext]
structure Signature where
  kind? : SymbolId → Option SymbolKind
  typeOf : SymbolId → Ty

namespace Signature

variable (sig : Signature)

def isStatic (id : SymbolId) : Bool := (sig.kind? id).any (·.isStatic)

def isMethod (id : SymbolId) : Bool := (sig.kind? id).any (·.isMethod)

def isField (id : SymbolId) : Bool := (sig.kind? id).any (·.isField)

/-- The parameters of a method; nothing else has any. -/
def paramsOf (id : SymbolId) : List SymbolId :=
  (((sig.kind? id).bind (·.method?)).map (·.params)).getD []

end Signature

namespace Signature

variable (sig : Signature) {x : SymbolId}

theorem isStatic_of_field {cls : SymbolId} {modifiers : Modifiers}
    (hkind : sig.kind? x = some (.field cls modifiers)) : sig.isStatic x = modifiers.isStatic := by
  simp [isStatic, hkind, SymbolKind.isStatic, SymbolKind.modifiers?]

theorem isStatic_of_method {info : MethodInfo} (hkind : sig.kind? x = some (.method info)) :
    sig.isStatic x = info.modifiers.isStatic := by
  simp [isStatic, hkind, SymbolKind.isStatic, SymbolKind.modifiers?]

theorem paramsOf_of_method {info : MethodInfo} (hkind : sig.kind? x = some (.method info)) :
    sig.paramsOf x = info.params := by
  simp [paramsOf, hkind, SymbolKind.method?]

theorem isField_iff :
    sig.isField x = true ↔ ∃ cls modifiers, sig.kind? x = some (.field cls modifiers) := by
  unfold isField
  cases sig.kind? x with
  | none => simp
  | some kind => cases kind <;> simp [SymbolKind.isField]

theorem isMethod_iff : sig.isMethod x = true ↔ ∃ info, sig.kind? x = some (.method info) := by
  unfold isMethod
  cases sig.kind? x with
  | none => simp
  | some kind => cases kind <;> simp [SymbolKind.isMethod, SymbolKind.method?]

end Signature

namespace SymbolTable

def signature (table : SymbolTable) : Signature := ⟨table.kind?, table.typeOf⟩

@[simp]
theorem signature_kind? (table : SymbolTable) : table.signature.kind? = table.kind? := rfl

@[simp]
theorem signature_typeOf (table : SymbolTable) : table.signature.typeOf = table.typeOf := rfl

@[simp]
theorem signature_isStatic (table : SymbolTable) : table.signature.isStatic = table.isStatic := rfl

@[simp]
theorem signature_isMethod (table : SymbolTable) : table.signature.isMethod = table.isMethod := rfl

@[simp]
theorem signature_isField (table : SymbolTable) : table.signature.isField = table.isField := rfl

@[simp]
theorem signature_paramsOf (table : SymbolTable) : table.signature.paramsOf = table.paramsOf := rfl

variable {table : SymbolTable}

theorem classInfo?_eq_some_iff {cls : SymbolId} {info : ClassInfo} :
    table.classInfo? cls = some info ↔ table.kind? cls = some (.cls info) := by
  unfold classInfo?
  cases table.kind? cls with
  | none => simp
  | some kind => cases kind <;> simp [SymbolKind.class?]

theorem methodInfo?_eq_some_iff {m : SymbolId} {info : MethodInfo} :
    table.methodInfo? m = some info ↔ table.kind? m = some (.method info) := by
  unfold methodInfo?
  cases table.kind? m with
  | none => simp
  | some kind => cases kind <;> simp [SymbolKind.method?]

theorem paramsOf_eq {m : SymbolId} {info : MethodInfo}
    (hmethod : table.kind? m = some (.method info)) : table.signature.paramsOf m = info.params :=
  table.signature.paramsOf_of_method hmethod

/-- Nothing but a method has parameters. -/
theorem method_of_mem_paramsOf {m p : SymbolId} (hmem : p ∈ table.paramsOf m) :
    ∃ info, table.kind? m = some (.method info) ∧ p ∈ info.params := by
  cases hmethod : table.methodInfo? m with
  | none => simp [paramsOf, hmethod] at hmem
  | some info =>
    have hkind := methodInfo?_eq_some_iff.1 hmethod
    exact ⟨info, hkind, (paramsOf_eq hkind : table.paramsOf m = info.params) ▸ hmem⟩

/-- A field or method is added to a class that has no member of its name. -/
theorem addMember?_eq_some_iff {table' : SymbolTable} {cls : SymbolId} {name : String}
    {kind : SymbolKind} {ty : Ty} {span : Span} :
    table.addMember? cls name kind ty span = some table' ↔
      ∃ info, table.kind? cls = some (.cls info) ∧ info.members.contains name = false ∧
        (kind.isField || kind.isMethod) = true ∧
          table' = table.insertMember cls name kind ty span := by
  have hadmits : table.admitsMember cls name kind = true ↔
      ∃ info, table.kind? cls = some (.cls info) ∧ info.members.contains name = false ∧
        (kind.isField || kind.isMethod) = true := by
    simp only [← classInfo?_eq_some_iff]
    unfold admitsMember
    cases table.classInfo? cls <;> simp
  unfold addMember?
  rw [Option.ite_none_right_eq_some, hadmits, Option.some.injEq, eq_comm (b := table')]
  simp only [← and_assoc, exists_and_right]

/-- Assigning a slot changes no declaration. -/
theorem signature_modify_slot (table : SymbolTable) (id : SymbolId) (slot : Option Int) :
    (table.modify id fun symbol => { symbol with slot }).signature = table.signature := by
  apply Signature.ext
  · funext query
    simp only [signature_kind?, kind?, get?_modify]
    split <;> simp [Function.comp_def]
  · funext query
    simp only [signature_typeOf, typeOf, get?_modify]
    split <;> simp [Function.comp_def]

/-- A slot can be assigned exactly to a symbol without one. -/
theorem setSlot_eq_ok_iff {table table' : SymbolTable} {id : SymbolId} {slot : Int} :
    table.setSlot id slot = .ok table' ↔
      table.slot? id = none ∧
        table' = table.modify id fun symbol => { symbol with slot := some slot } := by
  unfold setSlot
  cases table.slot? id <;> simp [eq_comm]

theorem signature_setSlot {table table' : SymbolTable} {id : SymbolId} {slot : Int}
    (hset : table.setSlot id slot = .ok table') : table'.signature = table.signature := by
  obtain ⟨-, rfl⟩ := setSlot_eq_ok_iff.1 hset
  exact signature_modify_slot table id (some slot)

theorem slot?_modify_slot (table : SymbolTable) (id query : SymbolId) (slot : Option Int) :
    (table.modify id fun symbol => { symbol with slot }).slot? query =
      if query = id then (table.get? query).bind fun _ => slot else table.slot? query := by
  simp only [slot?, get?_modify]
  split <;> cases table.get? query <;> rfl

/-- Assigned slots stay. -/
theorem slot?_setSlot_of_some {table table' : SymbolTable} {id query : SymbolId} {slot d : Int}
    (hset : table.setSlot id slot = .ok table') (hslot : table.slot? query = some d) :
    table'.slot? query = some d := by
  obtain ⟨hnone, rfl⟩ := setSlot_eq_ok_iff.1 hset
  rw [slot?_modify_slot, if_neg]
  · exact hslot
  · rintro rfl
    rw [hnone] at hslot
    cases hslot

/-- A symbol of the table has the slot it is assigned. -/
theorem slot?_setSlot_self {table table' : SymbolTable} {id : SymbolId} {slot : Int}
    (hset : table.setSlot id slot = .ok table') (hin : (table.kind? id).isSome) :
    table'.slot? id = some slot := by
  obtain ⟨-, rfl⟩ := setSlot_eq_ok_iff.1 hset
  rw [slot?_modify_slot, if_pos rfl]
  cases hget : table.get? id with
  | none => simp [kind?, hget] at hin
  | some symbol => rfl

theorem slot?_setSlot_of_ne {table table' : SymbolTable} {id query : SymbolId} {slot : Int}
    (hset : table.setSlot id slot = .ok table') (hne : query ≠ id) :
    table'.slot? query = table.slot? query := by
  obtain ⟨-, rfl⟩ := setSlot_eq_ok_iff.1 hset
  rw [slot?_modify_slot, if_neg hne]

/-- The second table has the declarations of the first and at least its slots. -/
structure Assigned (before after : SymbolTable) : Prop where
  signature : after.signature = before.signature
  slots : ∀ x d, before.slot? x = some d → after.slot? x = some d

namespace Assigned

theorem refl (table : SymbolTable) : Assigned table table := ⟨rfl, fun _ _ h => h⟩

theorem trans {t₁ t₂ t₃ : SymbolTable} (h₁ : Assigned t₁ t₂) (h₂ : Assigned t₂ t₃) :
    Assigned t₁ t₃ :=
  ⟨h₂.signature.trans h₁.signature, fun x d h => h₂.slots x d (h₁.slots x d h)⟩

theorem of_setSlot {table table' : SymbolTable} {id : SymbolId} {slot : Int}
    (hset : table.setSlot id slot = .ok table') : Assigned table table' :=
  ⟨signature_setSlot hset, fun _ _ h => slot?_setSlot_of_some hset h⟩

end Assigned

end SymbolTable

end SmallJava
