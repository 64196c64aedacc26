import SmallJava.Proofs.Typing.Judgement

namespace SmallJava

/-- Nothing but a method has a type that contains `void`. -/
structure Signature.VoidFree (sig : Signature) : Prop where
  symbols : ∀ x kind, sig.kind? x = some kind → kind.isMethod = false →
    (sig.typeOf x).avoidsVoid = true
  params : ∀ m, ∀ p ∈ sig.paramsOf m, (sig.typeOf p).avoidsVoid = true

/-- Where no declaration has type void, no path has. -/
theorem Reference.Value.avoidsVoid {Γ : Context} {vars : List SymbolId} {ref : Reference} {ty : Ty}
    (hvoid : Γ.sig.VoidFree) (h : ref.Value Γ vars ty) : ty.avoidsVoid = true := by
  cases h with
  | this => rfl
  | length => rfl
  | «variable» _ _ hkind =>
    obtain hkind | hkind := hkind
    · exact hvoid.symbols _ _ hkind rfl
    · exact hvoid.symbols _ _ hkind rfl
  | ownField _ hkind => exact hvoid.symbols _ _ hkind rfl
  | staticField _ hkind => exact hvoid.symbols _ _ hkind rfl
  | field _ hkind => exact hvoid.symbols _ _ hkind rfl

/-- Only `void` itself fits `void`. -/
theorem Ty.Fits.ne_void_of_ne {found expected : Ty} (h : found.Fits expected)
    (hvoid : expected ≠ .void) : found ≠ .void := by
  rintro rfl
  cases h
  exact hvoid rfl

/-- The expression is well typed and has a value. -/
def Expr.HasValue (Γ : Context) (vars : List SymbolId) (expr : Expr) : Prop :=
  ∃ τ, expr.HasType Γ vars τ ∧ τ ≠ .void

namespace Expr.HasValue

variable {Γ : Context} {vars : List SymbolId} {annot : Annot}

theorem unary {op : UnaryOp} {operand : Expr} (h : (Expr.unary annot op operand).HasValue Γ vars) :
    operand.HasValue Γ vars := by
  obtain ⟨τ, htyped, -⟩ := h
  cases htyped with
  | not hoperand => exact ⟨_, hoperand, nofun⟩
  | neg hoperand => exact ⟨_, hoperand, nofun⟩

/-- The operands of an operator with a value have values. -/
theorem binary {op : BinaryOp} {left right : Expr}
    (h : (Expr.binary annot op left right).HasValue Γ vars) :
    left.HasValue Γ vars ∧ right.HasValue Γ vars := by
  obtain ⟨τ, htyped, -⟩ := h
  cases htyped with
  | logical _ hleft hright => exact ⟨⟨_, hleft, nofun⟩, ⟨_, hright, nofun⟩⟩
  | relational _ hleft hright => exact ⟨⟨_, hleft, nofun⟩, ⟨_, hright, nofun⟩⟩
  | arithmetic _ hleft hright => exact ⟨⟨_, hleft, nofun⟩, ⟨_, hright, nofun⟩⟩
  | equality _ hleft hright hvoid hvoid' => exact ⟨⟨_, hleft, hvoid⟩, ⟨_, hright, hvoid'⟩⟩

/-- The parts of a choice with a value have values. -/
theorem ternary {cond onTrue onFalse : Expr}
    (h : (Expr.ternary annot cond onTrue onFalse).HasValue Γ vars) :
    cond.HasValue Γ vars ∧ onTrue.HasValue Γ vars ∧ onFalse.HasValue Γ vars := by
  obtain ⟨τ, htyped, hvoid⟩ := h
  cases htyped with
  | ternary hcond hTrue hFalse hfits hfits' =>
    exact ⟨⟨_, hcond, nofun⟩, ⟨_, hTrue, hfits.ne_void_of_ne hvoid⟩,
      ⟨_, hFalse, hfits'.ne_void_of_ne hvoid⟩⟩

theorem ref {target : Reference} (h : (Expr.ref annot target).HasValue Γ vars) :
    ∃ ty, target.Value Γ vars ty := by
  obtain ⟨τ, htyped, -⟩ := h
  cases htyped with
  | ref htarget => exact ⟨τ, htarget⟩

theorem index {target : Reference} {subscript : Expr}
    (h : (Expr.index annot target subscript).HasValue Γ vars) :
    (∃ ty, target.Value Γ vars ty) ∧ subscript.HasValue Γ vars := by
  obtain ⟨τ, htyped, -⟩ := h
  cases htyped with
  | index htarget hsubscript => exact ⟨⟨_, htarget⟩, ⟨_, hsubscript, nofun⟩⟩

/-- The arguments of a call with a value fit, and its method is not void. -/
theorem call {callee : Reference} {args : List Expr}
    (h : (Expr.call annot callee args).HasValue Γ vars) :
    ∃ m, callee.Callee Γ vars m ∧ Expr.ArgsFit Γ vars args (Γ.sig.paramsOf m) ∧
      (Γ.sig.typeOf m).isVoid = false := by
  obtain ⟨τ, htyped, hvoid⟩ := h
  cases htyped with
  | @call _ _ _ m hcallee hargs =>
    refine ⟨m, hcallee, hargs, ?_⟩
    cases hkind : (Γ.sig.typeOf m).isVoid with
    | false => rfl
    | true => exact absurd (Ty.isVoid_iff.1 hkind) hvoid

theorem newArray {elem : TypeExpr} {size : Expr}
    (h : (Expr.newArray annot elem size).HasValue Γ vars) : size.HasValue Γ vars := by
  obtain ⟨τ, htyped, -⟩ := h
  cases htyped with
  | newArray _ hsize => exact ⟨_, hsize, nofun⟩

end Expr.HasValue

end SmallJava
