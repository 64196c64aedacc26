import SmallJava.Proofs.Acceptance.Rules
import SmallJava.Proofs.Declaration.Declared
import SmallJava.Proofs.Typing.Rules

namespace SmallJava

/-- What is found on one side is what the rules say on the other, up to a translation. -/
structure Corresponds {α β : Type} (M : α → β → Prop) (P : α → Prop) (Q : β → Prop) : Prop where
  sound : ∀ a, P a → ∃ b, M a b ∧ Q b
  complete : ∀ b, Q b → ∃ a, M a b ∧ P a

/-- The type of a choice between alternatives that agree: `null` takes the other type. -/
def Ty.choice : Ty → Ty → Ty
  | null, other => other
  | ty, _ => ty

/-- The types with symbols and with names for the same classes. -/
inductive Ty.Means (decls : List ClassDef) : Ty → Source.Ty → Prop
  | int : Means decls .int .int
  | boolean : Means decls .boolean .boolean
  | void : Means decls .void .void
  | null : Means decls .null .null
  | unsupported : Means decls .unsupported .unsupported
  | object {cls c} (hmem : cls ∈ decls) (hbound : cls.binding = some c) :
    Means decls (.object c) (.object cls.name)
  | array {elem elem'} (helem : Means decls elem elem') : Means decls (.array elem) (.array elem')

/-- The classes are declared, the built-in ones among them. -/
structure Bindings.Knows (b : Bindings) (decls : List ClassDef) : Prop where
  describes : b.Describes decls
  string : ∃ cls ∈ decls, cls.name = "String" ∧ cls.binding = some b.builtins.string
  arrayLength : b.table.kind? b.builtins.arrayLength = some .arrayLength
  arrayLengthTy : b.table.typeOf b.builtins.arrayLength = .int

namespace Ty.Means

variable {b : Bindings} {decls : List ClassDef} {ty ty' : Ty} {τ τ' : Source.Ty}

/-- A type has one translation. -/
theorem unique (hdescribes : b.Describes decls) (h : ty.Means decls τ) (h' : ty.Means decls τ') :
    τ = τ' := by
  induction h generalizing τ' with
  | object hmem hbound =>
    cases h' with
    | object hmem' hbound' => rw [hdescribes.name_eq hmem hmem' hbound hbound']
  | array _ ih =>
    cases h' with
    | array helem => rw [ih helem]
  | _ => cases h'; rfl

/-- Types match as they are analysed and as they are written. -/
theorem agrees_iff (hdescribes : b.Describes decls) (h : ty.Means decls τ)
    (h' : ty'.Means decls τ') : ty.agrees ty' = true ↔ τ.Matches τ' := by
  induction h generalizing ty' τ' with
  | @object cls c hmem hbound =>
    constructor
    · intro hagrees
      cases h' with
      | null => exact .objectNull
      | @object cls' c' hmem' hbound' =>
        obtain rfl : c = c' := by simpa [agrees] using hagrees
        rw [hdescribes.name_eq hmem hmem' hbound hbound']
        exact .object
      | _ => cases hagrees
    · intro hmatches
      generalize hname : cls.name = name at hmatches
      cases hmatches with
      | objectNull =>
        cases h'
        rfl
      | object =>
        cases h' with
        | object hmem' hbound' =>
          obtain rfl := hdescribes.eq_of_name hmem hmem' hname
          obtain rfl := Option.some.inj (hbound.symm.trans hbound')
          exact beq_self_eq_true _
  | array helem ih =>
    constructor
    · intro hagrees
      cases h' with
      | null => exact .arrayNull
      | array helem' => exact .array ((ih helem').1 hagrees)
      | _ => cases hagrees
    · intro hmatches
      cases hmatches with
      | arrayNull =>
        cases h'
        rfl
      | array hmatches =>
        cases h' with
        | array helem' => exact (ih helem').2 hmatches
  | null =>
    constructor
    · intro hagrees
      cases h' with
      | null => exact .null
      | object => exact .nullObject
      | array => exact .nullArray
      | _ => cases hagrees
    · intro hmatches
      cases hmatches <;> cases h' <;> rfl
  | _ =>
    constructor
    · intro hagrees
      cases h' <;> first | cases hagrees; done | constructor
    · intro hmatches
      cases hmatches <;> cases h' <;> rfl

theorem isVoid_iff (h : ty.Means decls τ) : ty.isVoid = true ↔ τ = .void := by
  cases h <;> simp [isVoid]

theorem agrees_int_iff (h : ty.Means decls τ) : ty.agrees .int = true ↔ τ = .int := by
  cases h <;> simp [agrees]

theorem agrees_boolean_iff (h : ty.Means decls τ) : ty.agrees .boolean = true ↔ τ = .boolean := by
  cases h <;> simp [agrees]

/-- The type of a choice between matching alternatives. -/
theorem choice (h : ty.Means decls τ) (h' : ty'.Means decls τ') :
    (ty.choice ty').Means decls (τ.choice τ') := by
  cases h with
  | null => exact h'
  | object hmem hbound => exact .object hmem hbound
  | array helem => exact .array helem
  | _ => constructor

end Ty.Means

namespace Bindings.Knows

variable {b : Bindings} {decls : List ClassDef}

/-- The class that is called `String`, and no other, has no instances to use. -/
theorem instanceTy (h : b.Knows decls) {cls : ClassDef} {c : SymbolId} (hmem : cls ∈ decls)
    (hbound : cls.binding = some c) :
    b.builtins.instanceTy c = if cls.name = "String" then .unsupported else .object c := by
  obtain ⟨string, hstring, hname, hid⟩ := h.string
  unfold Builtins.instanceTy
  by_cases hc : c = b.builtins.string
  · subst hc
    rw [if_pos rfl, if_pos ((h.describes.name_eq hmem hstring hbound hid).trans hname)]
  · rw [if_neg hc, if_neg]
    intro heq
    obtain rfl := h.describes.eq_of_name hmem hstring (heq.trans hname.symm)
    exact hc (Option.some.inj (hbound.symm.trans hid))

/-- A class that exists is found by its name. -/
theorem class?_eq_some_iff (h : b.Knows decls) {name : String} {c : SymbolId} :
    b.scope.class? name = some c ↔ ∃ cls ∈ decls, cls.name = name ∧ cls.binding = some c :=
  h.describes.names name c

/-- The type of the instances of the class of a name. -/
theorem named_corresponds (h : b.Knows decls) (span : Span) (name : String) :
    Corresponds (Ty.Means decls)
      (fun ty => ∃ c, b.scope.class? name = some c ∧ ty = b.builtins.instanceTy c)
      (Source.Denotes (decls.map ClassDef.sig) (.named span name)) where
  sound := by
    rintro _ ⟨c, hfound, rfl⟩
    obtain ⟨cls, hmem, rfl, hbound⟩ := h.class?_eq_some_iff.1 hfound
    rw [h.instanceTy hmem hbound]
    by_cases hname : cls.name = "String"
    · rw [if_pos hname, hname]
      exact ⟨_, .unsupported, .string⟩
    · rw [if_neg hname]
      have hsig : cls.sig ∈ decls.map ClassDef.sig := List.mem_map_of_mem hmem
      exact ⟨_, .object hmem hbound, .object hsig hname⟩
  complete := by
    intro τ hdenotes
    cases hdenotes with
    | string =>
      obtain ⟨cls, hmem, hname, hbound⟩ := h.string
      refine ⟨_, .unsupported, _, h.class?_eq_some_iff.2 ⟨cls, hmem, hname, hbound⟩, ?_⟩
      rw [h.instanceTy hmem hbound, if_pos hname]
    | object hcls hname =>
      obtain ⟨cls, hmem, rfl⟩ := List.mem_map.1 hcls
      obtain ⟨c, hdeclared⟩ := h.describes.declared cls hmem
      refine ⟨_, .object hmem hdeclared.bound, c,
        h.class?_eq_some_iff.2 ⟨cls, hmem, rfl, hdeclared.bound⟩, ?_⟩
      rw [h.instanceTy hmem hdeclared.bound]
      exact (if_neg hname).symm

/-- Written types are resolved to what they denote. -/
theorem resolve_corresponds (h : b.Knows decls) (type : TypeExpr) :
    Corresponds (Ty.Means decls) (fun ty => type.resolve b.scope b.builtins = .ok ty)
      (Source.Denotes (decls.map ClassDef.sig) type) := by
  induction type with
  | named span name =>
    have hnamed := h.named_corresponds span name
    have hiff : ∀ ty, TypeExpr.resolve b.scope b.builtins (.named span name) = .ok ty ↔
        ∃ c, b.scope.class? name = some c ∧ ty = b.builtins.instanceTy c := by
      intro ty
      unfold TypeExpr.resolve
      cases b.scope.class? name <;> simp [eq_comm]
    refine ⟨fun ty hty => hnamed.sound ty ((hiff ty).1 hty), fun τ hτ => ?_⟩
    obtain ⟨ty, hmeans, hty⟩ := hnamed.complete τ hτ
    exact ⟨ty, hmeans, (hiff ty).2 hty⟩
  | array span elem ih =>
    constructor
    · intro ty hresolve
      unfold TypeExpr.resolve at hresolve
      cases helem : elem.resolve b.scope b.builtins with
      | error fatal => simp [helem, Except.map] at hresolve
      | ok elemTy =>
        rw [helem] at hresolve
        cases hresolve
        obtain ⟨τ, hmeans, hdenotes⟩ := ih.sound elemTy helem
        exact ⟨_, .array hmeans, .array hdenotes⟩
    · rintro _ ⟨⟩
      rename_i τ hdenotes
      obtain ⟨elemTy, hmeans, helem⟩ := ih.complete τ hdenotes
      refine ⟨_, .array hmeans, ?_⟩
      unfold TypeExpr.resolve
      rw [helem]
      rfl
  | int | boolean | void =>
    constructor
    · rintro _ ⟨⟩
      exact ⟨_, by constructor, by constructor⟩
    · rintro _ ⟨⟩
      exact ⟨_, by constructor, rfl⟩

end Bindings.Knows

namespace Typing

variable {b : Bindings} {decls : List ClassDef} {table : SymbolTable} {ty ty' : Ty}
  {τ τ' : Source.Ty} {span : Span}

theorem unary_eq_iff {op : UnaryOp} :
    unary op ty span = (ty', []) ↔ op.result? ty = some ty' := by
  unfold unary
  cases op.result? ty <;> simp

theorem binary_eq_iff {op : BinaryOp} {result : Ty} :
    binary op ty ty' span = (result, []) ↔ op.result? ty ty' = some result := by
  unfold binary
  cases op.result? ty ty' <;> simp

/-- An operator takes an operand of this type in the analysis exactly if it does in the judgement.
    -/
theorem unary_corresponds {op : UnaryOp} (h : ty.Means decls τ) :
    Corresponds (Ty.Means decls) (fun result => unary op ty span = (result, []))
      (Source.UnaryTyped op τ) where
  sound := by
    intro result hresult
    rw [unary_eq_iff] at hresult
    cases op with
    | not =>
      obtain ⟨hagrees, ⟨⟩⟩ := Option.ite_none_right_eq_some.1 hresult
      obtain rfl := h.agrees_boolean_iff.1 hagrees
      exact ⟨_, .boolean, .not⟩
    | neg =>
      obtain ⟨hagrees, ⟨⟩⟩ := Option.ite_none_right_eq_some.1 hresult
      obtain rfl := h.agrees_int_iff.1 hagrees
      exact ⟨_, .int, .neg⟩
  complete := by
    rintro _ ⟨⟩
    · exact ⟨_, .boolean, unary_eq_iff.2 (if_pos (h.agrees_boolean_iff.2 rfl))⟩
    · exact ⟨_, .int, unary_eq_iff.2 (if_pos (h.agrees_int_iff.2 rfl))⟩

/-- Two operands are taken together exactly if the judgement takes them, with the same result. The
    cases are the four families of operators. -/
theorem binary_corresponds {op : BinaryOp} (hdescribes : b.Describes decls)
    (h : ty.Means decls τ) (h' : ty'.Means decls τ') :
    Corresponds (Ty.Means decls) (fun result => binary op ty ty' span = (result, []))
      (Source.BinaryTyped op τ τ') where
  sound := by
    intro result hresult
    rw [binary_eq_iff] at hresult
    unfold BinaryOp.result? at hresult
    split at hresult
    next hfamily =>
      obtain ⟨hagrees, ⟨⟩⟩ := Option.ite_none_right_eq_some.1 hresult
      rw [Bool.and_eq_true, h.agrees_boolean_iff, h'.agrees_boolean_iff] at hagrees
      obtain ⟨rfl, rfl⟩ := hagrees
      exact ⟨_, .boolean, .logical hfamily⟩
    next hfamily =>
      obtain ⟨hagrees, ⟨⟩⟩ := Option.ite_none_right_eq_some.1 hresult
      rw [Bool.and_eq_true, h.agrees_int_iff, h'.agrees_int_iff] at hagrees
      obtain ⟨rfl, rfl⟩ := hagrees
      exact ⟨_, .boolean, .relational hfamily⟩
    next hfamily =>
      obtain ⟨hagrees, ⟨⟩⟩ := Option.ite_none_right_eq_some.1 hresult
      rw [Bool.and_eq_true, h.agrees_int_iff, h'.agrees_int_iff] at hagrees
      obtain ⟨rfl, rfl⟩ := hagrees
      exact ⟨_, .int, .arithmetic hfamily⟩
    next hfamily =>
      obtain ⟨hagrees, ⟨⟩⟩ := Option.ite_none_right_eq_some.1 hresult
      simp only [Bool.and_eq_true, Bool.not_eq_true', ← Bool.not_eq_true, h.isVoid_iff,
        h'.isVoid_iff, h.agrees_iff hdescribes h'] at hagrees
      obtain ⟨⟨hleft, hright⟩, hmatches⟩ := hagrees
      exact ⟨_, .boolean, .equality hfamily hleft hright hmatches⟩
  complete := by
    intro result htyped
    simp only [binary_eq_iff, BinaryOp.result?]
    cases htyped with
    | logical hfamily =>
      refine ⟨_, .boolean, ?_⟩
      simp [hfamily, h.agrees_boolean_iff.2 rfl, h'.agrees_boolean_iff.2 rfl]
    | relational hfamily =>
      refine ⟨_, .boolean, ?_⟩
      simp [hfamily, h.agrees_int_iff.2 rfl, h'.agrees_int_iff.2 rfl]
    | arithmetic hfamily =>
      refine ⟨_, .int, ?_⟩
      simp [hfamily, h.agrees_int_iff.2 rfl, h'.agrees_int_iff.2 rfl]
    | equality hfamily hleft hright hmatches =>
      refine ⟨_, .boolean, ?_⟩
      have hleft : ty.isVoid = false := by simpa [← h.isVoid_iff] using hleft
      have hright : ty'.isVoid = false := by simpa [← h'.isVoid_iff] using hright
      simp [hfamily, hleft, hright, (h.agrees_iff hdescribes h').2 hmatches]

theorem required_eq_nil_iff {role : String} {expected found : Ty} :
    required table role expected found span = [] ↔ found.agrees expected = true := by
  unfold required
  cases found.agrees expected <;> simp

/-- Two branches make a choice if their types agree; `null` takes the type of the other. -/
theorem ternary_eq_iff (h : ty.Means decls τ) (h' : ty'.Means decls τ') {result : Ty} :
    ternary table ty ty' span = (result, []) ↔
      ty.agrees ty' = true ∧ result = ty.choice ty' := by
  unfold ternary
  cases ty.agrees ty' with
  | false => simp
  | true => cases h <;> cases h' <;> simp [Ty.choice, eq_comm]

theorem stored_eq_nil_iff {elem found : Ty} :
    stored table elem found span = [] ↔ elem.agrees found = true := by
  unfold stored
  cases elem.agrees found <;> simp

theorem initial_eq_nil_iff {name : String} {expected found : Ty} :
    initial table name expected found span = [] ↔ expected.agrees found = true := by
  unfold initial
  cases expected.agrees found <;> simp

theorem branch_eq_nil_iff {stmt : Stmt} : branch stmt = [] ↔ stmt.isVarDecl = false := by
  unfold branch
  cases stmt.isVarDecl <;> simp

theorem returned_none_eq_nil_iff (table : SymbolTable) (span : Span) (h : ty.Means decls τ) :
    returned table ty none span = [] ↔ τ = .void := by
  rw [← h.isVoid_iff]
  unfold returned
  cases ty.isVoid <;> simp

theorem returned_some_eq_nil_iff (hdescribes : b.Describes decls) (h : ty.Means decls τ)
    (h' : ty'.Means decls τ') :
    returned table ty (some ty') span = [] ↔ τ ≠ .void ∧ τ.Matches τ' := by
  rw [Ne, ← h.isVoid_iff, ← h.agrees_iff hdescribes h']
  cases hvoid : ty.isVoid <;> cases hagrees : ty.agrees ty' <;> simp [returned, hvoid, hagrees]

end Typing

end SmallJava
