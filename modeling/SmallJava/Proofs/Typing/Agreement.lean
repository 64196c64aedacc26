import SmallJava.Ty

/-! The laws of agreement between types. It is neither reflexive nor transitive, but it does not
depend on the order of the two types, and a mistake in one of them never breaks it. -/

namespace SmallJava

namespace Ty

/-- Arrays of arrays of a type, as deep as the number says. -/
def arrays (ty : Ty) : Nat → Ty
  | 0 => ty
  | depth + 1 => array (ty.arrays depth)

/-- What all layers of arrays are built around. -/
def innermost : Ty → Ty
  | array elem => elem.innermost
  | ty => ty

/-- Being a type with a value that `null` can stand for. -/
def isNullable : Ty → Bool
  | null | object _ | array _ => true
  | _ => false

/-- The rule of agreement for two types that are not both arrays. -/
structure Compatible (left right : Ty) : Prop where
  supported : left ≠ unsupported
  supported' : right ≠ unsupported
  meet : left = error ∨ right = error ∨ (left = null ∧ right.isNullable = true) ∨
    (right = null ∧ left.isNullable = true) ∨ left = right

/-- The second type is the first one with a mistake in place of one component, or of the whole. -/
inductive Spoils : Ty → Ty → Prop
  | whole {ty} : Spoils ty error
  | elem {elem elem'} (h : Spoils elem elem') : Spoils (array elem) (array elem')

attribute [local simp] agrees element?

variable {left right : Ty}

/-- Agreement of types is symmetric. -/
theorem agrees_comm (left right : Ty) : left.agrees right = right.agrees left := by
  induction left generalizing right with
  | array elem ih =>
    cases right with
    | array other => simpa using ih other
    | _ => rfl
  | object cls =>
    cases right with
    | object other => simp [Bool.beq_comm]
    | _ => rfl
  | _ => cases right <;> rfl

theorem agrees_self_iff (ty : Ty) : ty.agrees ty = true ↔ ty.innermost ≠ unsupported := by
  induction ty with
  | array elem ih => simpa [innermost] using ih
  | _ => simp [innermost]

/-- Layers of arrays around both types make no difference. -/
theorem agrees_arrays (left right : Ty) (depth : Nat) :
    (left.arrays depth).agrees (right.arrays depth) = left.agrees right := by
  induction depth with
  | zero => rfl
  | succ depth ih => simpa [arrays] using ih

/-- Without the layers that both have, two types are not both arrays. -/
theorem exists_remainders (left right : Ty) : ∃ depth x y, left = arrays x depth ∧
    right = arrays y depth ∧ (x.element? = none ∨ y.element? = none) := by
  induction left generalizing right with
  | array elem ih =>
    cases right with
    | array other =>
      obtain ⟨depth, x, y, hx, hy, hbottom⟩ := ih other
      exact ⟨depth + 1, x, y, congrArg array hx, congrArg array hy, hbottom⟩
    | _ => exact ⟨0, _, _, rfl, rfl, .inr rfl⟩
  | _ => exact ⟨0, _, right, rfl, rfl, .inl rfl⟩

/-- Types that are not both arrays agree by the rule, whichever case of the definition they come to. -/
theorem agrees_iff_compatible (hbottom : left.element? = none ∨ right.element? = none) :
    left.agrees right = true ↔ left.Compatible right := by
  constructor
  · intro h
    refine ⟨?_, ?_, ?_⟩
    · rintro rfl
      simp at h
    · rintro rfl
      rw [agrees_comm] at h
      simp at h
    · cases left <;> cases right <;> simp_all [isNullable]
  · rintro ⟨hleft, hright, hmeet⟩
    cases left <;> cases right <;> simp_all [isNullable]

/-- A type in which a mistake takes the place of a component agrees with all that the type itself
agrees with. -/
theorem Spoils.agrees {ty ty' : Ty} (h : ty.Spoils ty') (hagrees : ty.agrees right = true) :
    ty'.agrees right = true := by
  induction h generalizing right with
  | @whole ty =>
    cases right with
    | unsupported => cases ty <;> simp at hagrees
    | _ => rfl
  | elem _ ih =>
    cases right with
    | array other => simpa using ih (by simpa using hagrees)
    | _ => exact hagrees

/-- Agreement is symmetric and decided where the common layers of arrays end. A type agrees with
itself unless it is built around the unsupported one, and a mistake in place of a component takes no
agreement away. -/
theorem agreement_laws (left right : Ty) :
    left.agrees right = right.agrees left ∧
      (left.agrees left = true ↔ left.innermost ≠ unsupported) ∧
        (∃ depth x y, left = arrays x depth ∧ right = arrays y depth ∧
          (x.element? = none ∨ y.element? = none) ∧ (left.agrees right = true ↔ x.Compatible y)) ∧
          ∀ left', left.Spoils left' → left.agrees right = true → left'.agrees right = true := by
  refine ⟨agrees_comm left right, agrees_self_iff left, ?_, fun left' h => h.agrees⟩
  obtain ⟨depth, x, y, rfl, rfl, hbottom⟩ := exists_remainders left right
  refine ⟨depth, x, y, rfl, rfl, hbottom, ?_⟩
  rw [agrees_arrays, agrees_iff_compatible hbottom]

end Ty

end SmallJava
