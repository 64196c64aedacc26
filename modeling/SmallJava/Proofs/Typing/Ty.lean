import SmallJava.Analysis.Env

namespace SmallJava

namespace Ty

/-- Being a type that can be written: nothing in it stands for a mistake or for
    `null`. -/
def isWritten : Ty → Bool
  | null | error => false
  | array elem => elem.isWritten
  | _ => true

/-- Being the type of an expression without mistakes. -/
def isKnown (ty : Ty) : Bool := ty == null || ty.isWritten

/-- Containing no `void`. -/
def avoidsVoid : Ty → Bool
  | void => false
  | array elem => elem.avoidsVoid
  | _ => true

/-- A value of the first type may stand where the second is expected. -/
inductive Fits : Ty → Ty → Prop
  | same {ty} : Fits ty ty
  | nullObject {cls} : Fits null (object cls)
  | nullArray {elem} : Fits null (array elem)

attribute [local simp] agrees isWritten isKnown avoidsVoid

theorem isKnown_of_isWritten {ty : Ty} (h : ty.isWritten = true) : ty.isKnown = true := by
  simp [h]

/-- Two written types agree only if they are the same. -/
theorem eq_of_agrees {left right : Ty} (hleft : left.isWritten = true)
    (hright : right.isWritten = true) (hagrees : left.agrees right = true) : left = right := by
  induction left generalizing right with
  | array elem ih =>
    cases right with
    | array other =>
      have hleft : elem.isWritten = true := by simpa using hleft
      have hright : other.isWritten = true := by simpa using hright
      have hagrees : elem.agrees other = true := by simpa using hagrees
      rw [ih hleft hright hagrees]
    | _ => simp at hagrees hright
  | object cls =>
    cases right with
    | object other => simpa using hagrees
    | _ => simp at hagrees hright
  | _ => cases right <;> simp at hagrees hleft hright ⊢

theorem fits_null_of_agrees {expected : Ty} (hknown : expected.isKnown = true)
    (hagrees : null.agrees expected = true) : null.Fits expected := by
  cases expected with
  | null => exact .same
  | object cls => exact .nullObject
  | array elem => exact .nullArray
  | _ => simp at hagrees hknown

/-- What agrees with a written type fits it. -/
theorem fits_of_agrees {expected found : Ty} (hexpected : expected.isWritten = true)
    (hfound : found.isKnown = true) (hagrees : expected.agrees found = true) :
    found.Fits expected := by
  cases hwritten : found.isWritten with
  | true =>
    rw [eq_of_agrees hexpected hwritten hagrees]
    exact .same
  | false =>
    obtain rfl : found = null := by simpa [hwritten] using hfound
    cases expected with
    | object cls => exact .nullObject
    | array elem => exact .nullArray
    | _ => simp at hagrees hexpected

theorem eq_boolean_of_agrees {ty : Ty} (hknown : ty.isKnown = true)
    (hagrees : ty.agrees boolean = true) : ty = boolean := by
  cases ty <;> simp at hagrees hknown ⊢

theorem eq_int_of_agrees {ty : Ty} (hknown : ty.isKnown = true) (hagrees : ty.agrees int = true) :
    ty = int := by
  cases ty <;> simp at hagrees hknown ⊢

/-- Where no `void` is expected, none fits. -/
theorem Fits.ne_void {found expected : Ty} (hfits : found.Fits expected)
    (hexpected : expected.avoidsVoid = true) : found ≠ void := by
  rintro rfl
  cases hfits
  simp at hexpected

theorem isVoid_iff {ty : Ty} : ty.isVoid = true ↔ ty = void := by
  cases ty <;> simp [isVoid]

end Ty

namespace TypeExpr

/-- Containing no `void`. -/
def avoidsVoid : TypeExpr → Bool
  | void _ => false
  | array _ elem => elem.avoidsVoid
  | _ => true

variable {scope : Scope} {builtins : Builtins} {type : TypeExpr} {ty : Ty}

/-- A resolved type is one that can be written. -/
theorem isWritten_of_resolve (hresolve : type.resolve scope builtins = .ok ty) :
    ty.isWritten = true := by
  induction type generalizing ty with
  | named span name =>
    unfold resolve at hresolve
    split at hresolve
    next cls _ =>
      cases hresolve
      unfold Builtins.instanceTy
      split <;> rfl
    next => cases hresolve
  | array span elem ih =>
    unfold resolve at hresolve
    cases helem : elem.resolve scope builtins with
    | error fatal => simp [helem, Except.map] at hresolve
    | ok elemTy =>
      simp only [helem, Except.map] at hresolve
      cases hresolve
      have helemTy := ih helem
      simpa [Ty.isWritten] using helemTy
  | _ => cases hresolve; rfl

/-- A written type denotes `void` exactly if it is written so. -/
theorem isVoid_of_resolve (hresolve : type.resolve scope builtins = .ok ty) :
    ty.isVoid = type.isVoid := by
  cases type with
  | named span name =>
    unfold resolve at hresolve
    split at hresolve
    next cls _ =>
      cases hresolve
      unfold Builtins.instanceTy
      split <;> rfl
    next => cases hresolve
  | array span elem =>
    unfold resolve at hresolve
    cases helem : elem.resolve scope builtins with
    | error fatal => simp [helem, Except.map] at hresolve
    | ok elemTy =>
      simp only [helem, Except.map] at hresolve
      cases hresolve
      rfl
  | _ => cases hresolve; rfl

/-- A type that is written without void is resolved to one without void. -/
theorem avoidsVoid_of_resolve (hresolve : type.resolve scope builtins = .ok ty)
    (havoids : type.avoidsVoid = true) : ty.avoidsVoid = true := by
  induction type generalizing ty with
  | named span name =>
    unfold resolve at hresolve
    split at hresolve
    next cls _ =>
      cases hresolve
      unfold Builtins.instanceTy
      split <;> rfl
    next => cases hresolve
  | array span elem ih =>
    unfold resolve at hresolve
    cases helem : elem.resolve scope builtins with
    | error fatal => simp [helem, Except.map] at hresolve
    | ok elemTy =>
      simp only [helem, Except.map] at hresolve
      cases hresolve
      have helemTy := ih helem (by simpa [avoidsVoid] using havoids)
      simpa [Ty.avoidsVoid] using helemTy
  | void span => simp [avoidsVoid] at havoids
  | _ => cases hresolve; rfl

end TypeExpr

end SmallJava
