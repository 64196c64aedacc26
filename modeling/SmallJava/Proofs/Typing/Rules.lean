import SmallJava.Analysis.Stmt
import SmallJava.Proofs.Typing.Judgement

namespace SmallJava

namespace Typing

variable {table : SymbolTable} {τ τ' ty : Ty} {span : Span}

/-- A unary operator without a mistake has an operand of the type of its result. -/
theorem unary_eq {op : UnaryOp} (hknown : τ.isKnown = true) (h : unary op τ span = (ty, [])) :
    op = .not ∧ τ = .boolean ∧ ty = .boolean ∨ op = .neg ∧ τ = .int ∧ ty = .int := by
  unfold unary UnaryOp.result? at h
  cases op with
  | not =>
    cases hagrees : τ.agrees .boolean with
    | false => simp [hagrees] at h
    | true =>
      simp only [hagrees, if_pos] at h
      exact .inl ⟨rfl, Ty.eq_boolean_of_agrees hknown hagrees, (Prod.mk.inj h).1.symm⟩
  | neg =>
    cases hagrees : τ.agrees .int with
    | false => simp [hagrees] at h
    | true =>
      simp only [hagrees, if_pos] at h
      exact .inr ⟨rfl, Ty.eq_int_of_agrees hknown hagrees, (Prod.mk.inj h).1.symm⟩

/-- What the operands and the result of a binary operator without a mistake are,
    family by family. -/
theorem binary_eq {op : BinaryOp} (hknown : τ.isKnown = true) (hknown' : τ'.isKnown = true)
    (h : binary op τ τ' span = (ty, [])) :
    match op.family with
    | .logical => τ = .boolean ∧ τ' = .boolean ∧ ty = .boolean
    | .relational => τ = .int ∧ τ' = .int ∧ ty = .boolean
    | .arithmetic => τ = .int ∧ τ' = .int ∧ ty = .int
    | .equality => τ ≠ .void ∧ τ' ≠ .void ∧ ty = .boolean := by
  unfold binary at h
  cases hresult : op.result? τ τ' with
  | none => simp [hresult] at h
  | some result =>
    simp only [hresult] at h
    obtain rfl := (Prod.mk.inj h).1
    unfold BinaryOp.result? at hresult
    cases hfamily : op.family with
    | logical =>
      simp only [hfamily] at hresult
      obtain ⟨hagrees, hty⟩ := Option.ite_none_right_eq_some.1 hresult
      obtain ⟨hleft, hright⟩ := Bool.and_eq_true_iff.1 hagrees
      exact ⟨Ty.eq_boolean_of_agrees hknown hleft, Ty.eq_boolean_of_agrees hknown' hright,
        (Option.some.inj hty).symm⟩
    | relational =>
      simp only [hfamily] at hresult
      obtain ⟨hagrees, hty⟩ := Option.ite_none_right_eq_some.1 hresult
      obtain ⟨hleft, hright⟩ := Bool.and_eq_true_iff.1 hagrees
      exact ⟨Ty.eq_int_of_agrees hknown hleft, Ty.eq_int_of_agrees hknown' hright,
        (Option.some.inj hty).symm⟩
    | arithmetic =>
      simp only [hfamily] at hresult
      obtain ⟨hagrees, hty⟩ := Option.ite_none_right_eq_some.1 hresult
      obtain ⟨hleft, hright⟩ := Bool.and_eq_true_iff.1 hagrees
      exact ⟨Ty.eq_int_of_agrees hknown hleft, Ty.eq_int_of_agrees hknown' hright,
        (Option.some.inj hty).symm⟩
    | equality =>
      simp only [hfamily] at hresult
      obtain ⟨hagrees, hty⟩ := Option.ite_none_right_eq_some.1 hresult
      simp only [Bool.and_eq_true, Bool.not_eq_true'] at hagrees
      obtain ⟨⟨hleft, hright⟩, -⟩ := hagrees
      refine ⟨?_, ?_, (Option.some.inj hty).symm⟩
      · rintro rfl
        simp [Ty.isVoid] at hleft
      · rintro rfl
        simp [Ty.isVoid] at hright

theorem agrees_of_required {role : String} {expected found : Ty}
    (h : required table role expected found span = []) : found.agrees expected = true := by
  unfold required at h
  cases hagrees : found.agrees expected with
  | true => rfl
  | false => simp [hagrees] at h

/-- Both alternatives fit the type of a choice without a mistake. -/
theorem ternary_eq (hknown : τ.isKnown = true) (hknown' : τ'.isKnown = true)
    (h : ternary table τ τ' span = (ty, [])) :
    τ.Fits ty ∧ τ'.Fits ty ∧ ty.isKnown = true := by
  unfold ternary at h
  cases hagrees : τ.agrees τ' with
  | false => simp [hagrees] at h
  | true =>
    rw [hagrees, if_pos rfl] at h
    by_cases hnull : τ = .null
    · subst hnull
      have hty : ty = τ' := by
        cases τ' <;> exact (Prod.mk.inj h).1.symm
      subst hty
      exact ⟨Ty.fits_null_of_agrees hknown' hagrees, .same, hknown'⟩
    · have hwritten : τ.isWritten = true := by simpa [Ty.isKnown, hnull] using hknown
      have hty : ty = τ := by
        have hne : τ ≠ .error := by
          rintro rfl
          simp [Ty.isWritten] at hwritten
        have hne' : τ' ≠ .error := by
          rintro rfl
          simp [Ty.isKnown, Ty.isWritten] at hknown'
        cases τ <;> cases τ' <;> simp_all
      subst hty
      exact ⟨.same, Ty.fits_of_agrees hwritten hknown' hagrees, hknown⟩

/-- Neither a class nor a method is a value. -/
theorem value_eq {target : Reference} (h : value table target τ = (ty, [])) :
    ty = τ ∧ (∀ info, target.kind? table ≠ some (.cls info)) ∧
      ∀ info, target.kind? table ≠ some (.method info) := by
  unfold value at h
  split at h
  next => simp at h
  next => simp at h
  next hcls hmethod => exact ⟨(Prod.mk.inj h).1.symm, fun info h => hcls info h, fun info h => hmethod info h⟩

/-- What is indexed without a mistake is an array. -/
theorem element_eq {target : Reference} (hwritten : τ.isWritten = true)
    (h : element table target τ span = (ty, [])) :
    τ = .array ty ∧ (∀ info, target.kind? table ≠ some (.cls info)) ∧
      ∀ info, target.kind? table ≠ some (.method info) := by
  unfold element at h
  split at h
  next => simp at h
  next => simp at h
  next => simp at h
  next hthis hcls hmethod =>
    refine ⟨?_, fun info h => hcls info h, fun info h => hmethod info h⟩
    cases τ with
    | array elem => rw [(Prod.mk.inj h).1]
    | error => simp [Ty.isWritten] at hwritten
    | _ => simp at h

/-- What is assigned without a mistake has a place of its own. -/
theorem unassignable?_eq_none {target : Reference} (h : unassignable? table target = none) :
    (∀ annot, target ≠ .this annot) ∧ (∀ info, target.kind? table ≠ some (.cls info)) ∧
      (∀ info, target.kind? table ≠ some (.method info)) ∧
        target.kind? table ≠ some .arrayLength := by
  unfold unassignable? at h
  split at h
  next => cases h
  next => cases h
  next => cases h
  next => cases h
  next hthis hcls hmethod hlength =>
    exact ⟨fun annot h => hthis annot h, fun info h => hcls info h, fun info h => hmethod info h,
      fun h => hlength h⟩

/-- An assignment of a known type on which nothing is reported is one to something assignable, of a
    type that fits. -/
theorem assignment_eq {target : Reference} (hwritten : τ.isWritten = true)
    (hknown : τ'.isKnown = true) (h : assignment table target τ τ' span = []) :
    τ'.Fits τ ∧ unassignable? table target = none := by
  unfold assignment at h
  cases hplace : unassignable? table target with
  | some what => simp [hplace] at h
  | none =>
    cases hagrees : τ.agrees τ' with
    | false => simp [hplace, hagrees] at h
    | true => exact ⟨Ty.fits_of_agrees hwritten hknown hagrees, rfl⟩

theorem initial_eq {name : String} (hwritten : τ.isWritten = true) (hknown : τ'.isKnown = true)
    (h : initial table name τ τ' span = []) : τ'.Fits τ := by
  unfold initial at h
  cases hagrees : τ.agrees τ' with
  | false => simp [hagrees] at h
  | true => exact Ty.fits_of_agrees hwritten hknown hagrees

theorem stored_eq (hwritten : τ.isWritten = true) (hknown : τ'.isKnown = true)
    (h : stored table τ τ' span = []) : τ'.Fits τ := by
  unfold stored at h
  cases hagrees : τ.agrees τ' with
  | false => simp [hagrees] at h
  | true => exact Ty.fits_of_agrees hwritten hknown hagrees

theorem returned_none_eq (h : returned table τ none span = []) : τ = .void := by
  cases hvoid : τ.isVoid with
  | false => simp [returned, hvoid] at h
  | true => exact Ty.isVoid_iff.1 hvoid

theorem returned_some_eq (hwritten : τ.isWritten = true) (hknown : τ'.isKnown = true)
    (h : returned table τ (some τ') span = []) : τ ≠ .void ∧ τ'.Fits τ := by
  cases hvoid : τ.isVoid with
  | true => simp [returned, hvoid] at h
  | false =>
    refine ⟨fun heq => by simp [Ty.isVoid_iff.2 heq] at hvoid, ?_⟩
    cases hagrees : τ.agrees τ' with
    | false => simp [returned, hvoid, hagrees] at h
    | true => exact Ty.fits_of_agrees hwritten hknown hagrees

/-- What stands alone in a branch is no declaration. -/
theorem branch_eq {stmt : Stmt} (h : branch stmt = []) : stmt.isVarDecl = false := by
  cases hdecl : stmt.isVarDecl with
  | true => simp [branch, hdecl] at h
  | false => rfl

end Typing

end SmallJava
