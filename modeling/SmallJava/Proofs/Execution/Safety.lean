import SmallJava.Proofs.Execution.HeapTyping
import SmallJava.Proofs.Typing.ReferenceSoundness
import SmallJava.Proofs.Typing.Values

namespace SmallJava

open Exec

/-- What calls of methods yield is what the declarations say. -/
def Scene.Invokes (sc : Scene) (sig : Signature) : Prop :=
  ∀ (W : HeapTyping) m info this args, sig.kind? m = some (.method info) →
    (info.modifiers.isStatic = false → this ≠ .null ∧ this.HasTy sig W (.object info.owner)) →
      List.Forall₂ (fun d p => d.HasTy sig W (sig.typeOf p)) args (sig.paramsOf m) →
        Sound sig W (sc.invoke m this args) fun W' => HasResult sig W' (sig.typeOf m)

/-- The scene is one in which the code of a method can be executed. -/
structure Scene.Typed (sc : Scene) (Γ : Context) (W : HeapTyping) : Prop where
  sig : sc.sig = Γ.sig
  this : Γ.isStatic = false → sc.this ≠ .null ∧ sc.this.HasTy Γ.sig W (.object Γ.cls)
  invoke : sc.Invokes Γ.sig
  /-- Objects have the fields of their class. -/
  fields : ∀ x cls modifiers, Γ.sig.kind? x = some (.field cls modifiers) →
    modifiers.isStatic = false → x ∈ Γ.sig.instanceFields cls
  voidFree : Γ.sig.VoidFree

/-- What is not static is not used where everything is. -/
theorem Context.not_isStatic {Γ : Context} {modifiers : Modifiers}
    (hcontext : Γ.isStatic = true → modifiers.isStatic = true) (hstatic : modifiers.isStatic = false) :
    Γ.isStatic = false := by
  by_contra hne
  rw [hcontext (by simpa using hne)] at hstatic
  cases hstatic

namespace Scene.Typed

variable {sc : Scene} {Γ : Context} {W W' : HeapTyping} {env : Valuation} {owner value : Exec Datum}
  {name : Ident} {x cls : SymbolId} {modifiers : Modifiers}

theorem mono (h : sc.Typed Γ W) (hextends : W.Extends W') : sc.Typed Γ W' where
  sig := h.sig
  this hinstance := ⟨(h.this hinstance).1, (h.this hinstance).2.mono hextends⟩
  invoke := h.invoke
  fields := h.fields
  voidFree := h.voidFree

/-- A field of an object has its place in it. -/
theorem isObject_field (h : sc.Typed Γ W) (hkind : Γ.sig.kind? x = some (.field cls modifiers))
    (hstatic : modifiers.isStatic = false) {n : Nat} (hobject : W'.IsObject Γ.sig cls n) :
    ∃ i : Nat, (Datum.heap n).offset (sc.fieldOffset cls x) = .heap (n + i : Nat) ∧
      W'[n + i]? = some (.value (Γ.sig.typeOf x)) := by
  have hmem := h.fields x cls modifiers hkind hstatic
  refine ⟨(Γ.sig.instanceFields cls).idxOf x, ?_, hobject _ x ?_⟩
  · simp [Datum.offset, Scene.fieldOffset, h.sig]
  · rw [List.getElem?_eq_getElem (List.idxOf_lt_length_of_mem hmem), List.getElem_idxOf]

theorem sound_variable (h : sc.Typed Γ W) (hbound : name.binding = some x)
    (hkind : Γ.sig.kind? x = some .localVar ∨ Γ.sig.kind? x = some .param)
    (hd : (env x).HasTy Γ.sig W (Γ.sig.typeOf x)) :
    Sound Γ.sig W (sc.value env owner name) fun W' d => d.HasTy Γ.sig W' (Γ.sig.typeOf x) := by
  rw [Scene.value_variable hbound (h.sig.symm ▸ hkind)]
  exact sound_pure hd

theorem sound_staticField (h : sc.Typed Γ W) (hbound : name.binding = some x)
    (hkind : Γ.sig.kind? x = some (.field cls modifiers)) (hstatic : modifiers.isStatic = true) :
    Sound Γ.sig W (sc.value env owner name) fun W' d => d.HasTy Γ.sig W' (Γ.sig.typeOf x) := by
  rw [Scene.value_static hbound (h.sig.symm ▸ hkind) hstatic]
  exact sound_static hkind hstatic

/-- The value of a field has the type of the field, if the owner is an object of its class. -/
theorem sound_field (h : sc.Typed Γ W) (hbound : name.binding = some x)
    (hkind : Γ.sig.kind? x = some (.field cls modifiers)) (hstatic : modifiers.isStatic = false)
    (howner : Sound Γ.sig W owner fun W' d => d.HasTy Γ.sig W' (.object cls)) :
    Sound Γ.sig W (sc.value env owner name) fun W' d => d.HasTy Γ.sig W' (Γ.sig.typeOf x) := by
  rw [Scene.value_field hbound (h.sig.symm ▸ hkind) hstatic]
  refine howner.bind fun W₁ d _ hd => ?_
  refine (sound_object hd).bind fun W₂ found _ hobject => ?_
  obtain ⟨n, rfl, hobject⟩ := hobject
  obtain ⟨i, hplace, hcell⟩ := h.isObject_field hkind hstatic hobject
  rw [hplace]
  exact sound_load hcell

/-- The length of an array is a number. -/
theorem sound_length (h : sc.Typed Γ W) {elem : Ty} (hbound : name.binding = some x)
    (hkind : Γ.sig.kind? x = some .arrayLength)
    (howner : Sound Γ.sig W owner fun W' d => d.HasTy Γ.sig W' (.array elem)) :
    Sound Γ.sig W (sc.value env owner name) fun W' d => d.HasTy Γ.sig W' .int := by
  rw [Scene.value_length hbound (h.sig.symm ▸ hkind)]
  refine howner.bind fun W₁ d _ hd => (Exec.sound_length hd).mono ?_
  rintro W₂ found - ⟨n, count, -, rfl, -⟩
  exact ⟨count, rfl⟩

/-- An assignment to a variable keeps the variables typed. -/
theorem sound_assignVariable (h : sc.Typed Γ W) {vars : List SymbolId}
    (henv : env.Typed Γ.sig W vars) (hbound : name.binding = some x)
    (hkind : Γ.sig.kind? x = some .localVar ∨ Γ.sig.kind? x = some .param)
    (hvalue : Sound Γ.sig W value fun W' d => d.HasTy Γ.sig W' (Γ.sig.typeOf x)) :
    Sound Γ.sig W (sc.assign env owner name value) fun W' env' => env'.Typed Γ.sig W' vars := by
  rw [Scene.assign_variable hbound (h.sig.symm ▸ hkind)]
  exact hvalue.bind fun W' d hle hd =>
    sound_pure ((henv.mono hle).update hd fun y hmem _ => hmem)

/-- An assignment to a static field keeps the store typed. -/
theorem sound_assignStatic (h : sc.Typed Γ W) {vars : List SymbolId}
    (henv : env.Typed Γ.sig W vars) (hbound : name.binding = some x)
    (hkind : Γ.sig.kind? x = some (.field cls modifiers)) (hstatic : modifiers.isStatic = true)
    (hvalue : Sound Γ.sig W value fun W' d => d.HasTy Γ.sig W' (Γ.sig.typeOf x)) :
    Sound Γ.sig W (sc.assign env owner name value) fun W' env' => env'.Typed Γ.sig W' vars := by
  rw [Scene.assign_static hbound (h.sig.symm ▸ hkind) hstatic]
  refine hvalue.bind fun W₁ d hle₁ hd => ?_
  refine (sound_setStatic hd).bind fun W₂ _ hle₂ _ => ?_
  exact sound_pure (henv.mono (hle₁.trans hle₂))

/-- An assignment to a field keeps the store typed, if the owner is an object of its class. -/
theorem sound_assignField (h : sc.Typed Γ W) {vars : List SymbolId}
    (henv : env.Typed Γ.sig W vars) (hbound : name.binding = some x)
    (hkind : Γ.sig.kind? x = some (.field cls modifiers)) (hstatic : modifiers.isStatic = false)
    (howner : Sound Γ.sig W owner fun W' d => d.HasTy Γ.sig W' (.object cls))
    (hvalue : ∀ W' : HeapTyping, W.Extends W' →
      Sound Γ.sig W' value fun W' d => d.HasTy Γ.sig W' (Γ.sig.typeOf x)) :
    Sound Γ.sig W (sc.assign env owner name value) fun W' env' => env'.Typed Γ.sig W' vars := by
  rw [Scene.assign_field hbound (h.sig.symm ▸ hkind) hstatic]
  refine howner.bind fun W₁ o hle₁ ho => ?_
  refine (hvalue W₁ hle₁).bind fun W₂ d hle₂ hd => ?_
  refine (sound_object (ho.mono hle₂)).bind fun W₃ found hle₃ hobject => ?_
  obtain ⟨n, rfl, hobject⟩ := hobject
  obtain ⟨i, hplace, hcell⟩ := h.isObject_field hkind hstatic hobject
  rw [hplace]
  exact (sound_store hcell (hd.mono hle₃)).bind fun W₄ _ hle₄ _ =>
    sound_pure (henv.mono (((hle₁.trans hle₂).trans hle₃).trans hle₄))

/-- A call with arguments that fit yields a result of the type of the method. -/
theorem sound_call (h : sc.Typed Γ W) {binding : Option SymbolId} {m : SymbolId}
    {info : MethodInfo} {args : List Datum} (hbound : binding = some m)
    (hkind : Γ.sig.kind? m = some (.method info))
    (howner : info.modifiers.isStatic = false →
      Sound Γ.sig W owner fun W' d => d.HasTy Γ.sig W' (.object info.owner))
    (hargs : List.Forall₂ (fun d p => d.HasTy Γ.sig W (Γ.sig.typeOf p)) args (Γ.sig.paramsOf m)) :
    Sound Γ.sig W (sc.call owner binding args) fun W' =>
      HasResult Γ.sig W' (Γ.sig.typeOf m) := by
  rw [hbound]
  cases hstatic : info.modifiers.isStatic with
  | true =>
    rw [Scene.call_static (h.sig.symm ▸ hkind) hstatic]
    exact h.invoke W m info .null args hkind (by simp [hstatic]) hargs
  | false =>
    rw [Scene.call_instance (h.sig.symm ▸ hkind) hstatic]
    refine (howner hstatic).bind fun W₁ o hle₁ ho => ?_
    refine (sound_object ho).bind fun W₂ found hle₂ hobject => ?_
    obtain ⟨n, rfl, hobject⟩ := hobject
    exact h.invoke W₂ m info (.heap n) args hkind (fun _ => ⟨nofun, .inr ⟨n, rfl, hobject⟩⟩)
      (hargs.imp fun d p hd => hd.mono (hle₁.trans hle₂))

end Scene.Typed

namespace Reference

variable {sc : Scene} {Γ : Context} {W : HeapTyping} {vars : List SymbolId} {env : Valuation}

/-- A well-typed path has a value of its type. -/
theorem Value.sound {ref : Reference} {ty : Ty} (h : ref.Value Γ vars ty) (hsc : sc.Typed Γ W)
    (henv : env.Typed Γ.sig W vars) :
    Sound Γ.sig W (ref.eval sc env) fun W' d => d.HasTy Γ.sig W' ty := by
  induction h with
  | this hinstance => exact sound_pure (hsc.this hinstance).2
  | @«variable» annot name x hbound hvar hkind =>
    exact hsc.sound_variable hbound hkind (henv x hvar)
  | @ownField annot name x modifiers hbound hkind hstatic =>
    cases hmodifiers : modifiers.isStatic with
    | true => exact hsc.sound_staticField hbound hkind hmodifiers
    | false =>
      have hinstance := Γ.not_isStatic hstatic hmodifiers
      exact hsc.sound_field hbound hkind hmodifiers (sound_pure (hsc.this hinstance).2)
  | staticField hbound hkind hstatic => exact hsc.sound_staticField hbound hkind hstatic
  | field hbound hkind hstatic howner ih => exact hsc.sound_field hbound hkind hstatic ih
  | length hbound hkind howner ih => exact hsc.sound_length hbound hkind ih

/-- The object of a call has the class of the method. -/
theorem Callee.sound_evalOwner {callee : Reference} {m : SymbolId} {info : MethodInfo}
    (h : callee.Callee Γ vars m) (hsc : sc.Typed Γ W) (henv : env.Typed Γ.sig W vars)
    (hkind : Γ.sig.kind? m = some (.method info)) (hstatic : info.modifiers.isStatic = false) :
    Sound Γ.sig W (callee.evalOwner sc env) fun W' d => d.HasTy Γ.sig W' (.object info.owner) := by
  cases h with
  | own hbound hkind' howner hcontext =>
    rw [hkind] at hkind'
    obtain rfl := SymbolKind.method.inj (Option.some.inj hkind')
    have hinstance := Γ.not_isStatic hcontext hstatic
    rw [howner]
    exact sound_pure (hsc.this hinstance).2
  | static hbound hkind' hstatic' =>
    rw [hkind] at hkind'
    obtain rfl := SymbolKind.method.inj (Option.some.inj hkind')
    rw [hstatic] at hstatic'
    cases hstatic'
  | «instance» hbound hkind' _ howner =>
    rw [hkind] at hkind'
    obtain rfl := SymbolKind.method.inj (Option.some.inj hkind')
    exact howner.sound hsc henv

/-- A value of its type can be assigned to a place. -/
theorem Value.sound_assign {target : Reference} {ty : Ty} {value : Exec Datum}
    (h : target.Value Γ vars ty) (hplace : target.Assignable Γ.sig) (hsc : sc.Typed Γ W)
    (henv : env.Typed Γ.sig W vars)
    (hvalue : ∀ W' : HeapTyping, W.Extends W' →
      Sound Γ.sig W' value fun W' d => d.HasTy Γ.sig W' ty) :
    Sound Γ.sig W (target.assign sc env value) fun W' env' => env'.Typed Γ.sig W' vars := by
  have hhere := hvalue W (.refl W)
  obtain ⟨y, hbinding, hlength⟩ := hplace
  cases h with
  | this => cases hbinding
  | «variable» hbound hvar hkind => exact hsc.sound_assignVariable henv hbound hkind hhere
  | @ownField annot name x modifiers hbound hkind hstatic =>
    cases hmodifiers : modifiers.isStatic with
    | true => exact hsc.sound_assignStatic henv hbound hkind hmodifiers hhere
    | false =>
      have hinstance := Γ.not_isStatic hstatic hmodifiers
      exact hsc.sound_assignField henv hbound hkind hmodifiers (sound_pure (hsc.this hinstance).2)
        hvalue
  | staticField hbound hkind hstatic => exact hsc.sound_assignStatic henv hbound hkind hstatic hhere
  | field hbound hkind hstatic howner =>
    exact hsc.sound_assignField henv hbound hkind hstatic (howner.sound hsc henv) hvalue
  | length hbound hkind howner =>
    obtain rfl := Option.some.inj (hbinding.symm.trans hbound)
    exact absurd hkind hlength

end Reference

namespace UnaryOp

variable {sig : Signature} {W : HeapTyping} {d : Datum}

theorem sound_not : Sound sig W (not.apply d) fun W' d => d.HasTy sig W' .boolean :=
  sound_pure ⟨_, rfl⟩

theorem word?_ofWord (word : Word) : (Datum.ofWord word).word? = some word := by
  simp [Datum.ofWord, Datum.word?]

theorem sound_neg (hd : d.HasTy sig W .int) :
    Sound sig W (neg.apply d) fun W' d => d.HasTy sig W' .int := by
  obtain ⟨word, rfl⟩ := hd
  unfold apply
  rw [word?_ofWord]
  exact sound_pure ⟨_, rfl⟩

end UnaryOp

namespace BinaryOp

variable {sig : Signature} {W : HeapTyping} {op : BinaryOp} {left right : Datum}

theorem sound_equality (hfamily : op.family = .equality) :
    Sound sig W (op.apply left right) fun W' d => d.HasTy sig W' .boolean := by
  cases op with
  | eq | ne => exact sound_pure ⟨_, rfl⟩
  | _ => cases hfamily

/-- Words are compared to a truth value and reckoned with to a word. -/
theorem sound_words {ty : Ty} (hty : op.family = .relational ∧ ty = .boolean ∨
    op.family = .arithmetic ∧ ty = .int) (hleft : left.HasTy sig W .int)
    (hright : right.HasTy sig W .int) :
    Sound sig W (op.apply left right) fun W' d => d.HasTy sig W' ty := by
  obtain ⟨a, rfl⟩ := hleft
  obtain ⟨b, rfl⟩ := hright
  obtain ⟨hfamily, rfl⟩ | ⟨hfamily, rfl⟩ := hty
  · cases op with
    | lt | le | gt | ge =>
      simp only [apply, UnaryOp.word?_ofWord, eval?]
      exact sound_pure ⟨_, rfl⟩
    | _ => cases hfamily
  · cases op with
    | add | sub | mul =>
      simp only [apply, UnaryOp.word?_ofWord, eval?]
      exact sound_pure ⟨_, rfl⟩
    | div | mod =>
      simp only [apply, UnaryOp.word?_ofWord, eval?]
      by_cases hzero : b = 0
      · rw [if_pos hzero]
        exact sound_fault
      · rw [if_neg hzero]
        exact sound_pure ⟨_, rfl⟩
    | _ => cases hfamily

end BinaryOp

theorem Ty.boolean_ne_void : boolean ≠ void := Ty.noConfusion

theorem Ty.int_ne_void : int ≠ void := Ty.noConfusion

namespace Expr

variable {sc : Scene} {Γ : Context} {vars : List SymbolId} {env : Valuation}

mutual

/-- A well-typed expression that is to have a value has one of its type, if it has any. -/
theorem HasType.sound {W : HeapTyping} (hsc : sc.Typed Γ W) (henv : env.Typed Γ.sig W vars)
    {expr : Expr} {ty : Ty} : expr.HasType Γ vars ty → ty ≠ .void →
      Sound Γ.sig W (expr.eval sc env) fun W' d => d.HasTy Γ.sig W' ty
  | .int _ => fun _ => sound_pure ⟨_, rfl⟩
  | .bool _ => fun _ => sound_pure ⟨_, rfl⟩
  | .null _ => fun _ => sound_pure rfl
  | .not hoperand _ => by
    intro _
    refine (hoperand.sound hsc henv Ty.boolean_ne_void).bind fun W₁ d _ _ => ?_
    exact UnaryOp.sound_not
  | .neg hoperand _ => by
    intro _
    refine (hoperand.sound hsc henv Ty.int_ne_void).bind fun W₁ d _ hd => ?_
    exact UnaryOp.sound_neg hd
  | .logical hfamily hleft hright _ => by
    intro _
    refine (hleft.sound hsc henv Ty.boolean_ne_void).bind fun W₁ d hle hd => ?_
    rw [if_pos (by rw [BinaryOp.isLogical, hfamily]; rfl)]
    split
    · exact sound_pure hd
    · exact hright.sound (hsc.mono hle) (henv.mono hle) Ty.boolean_ne_void
  | .relational hfamily hleft hright _ => by
    intro _
    refine (hleft.sound hsc henv Ty.int_ne_void).bind fun W₁ d hle hd => ?_
    rw [if_neg (by rw [BinaryOp.isLogical, hfamily]; decide)]
    refine (hright.sound (hsc.mono hle) (henv.mono hle) Ty.int_ne_void).bind fun W₂ d' hle' hd' => ?_
    exact BinaryOp.sound_words (.inl ⟨hfamily, rfl⟩) (hd.mono hle') hd'
  | .arithmetic hfamily hleft hright _ => by
    intro _
    refine (hleft.sound hsc henv Ty.int_ne_void).bind fun W₁ d hle hd => ?_
    rw [if_neg (by rw [BinaryOp.isLogical, hfamily]; decide)]
    refine (hright.sound (hsc.mono hle) (henv.mono hle) Ty.int_ne_void).bind fun W₂ d' hle' hd' => ?_
    exact BinaryOp.sound_words (.inr ⟨hfamily, rfl⟩) (hd.mono hle') hd'
  | .equality hfamily hleft hright hvoid hvoid' _ => by
    intro _
    refine (hleft.sound hsc henv hvoid).bind fun W₁ d hle _ => ?_
    rw [if_neg (by rw [BinaryOp.isLogical, hfamily]; decide)]
    refine (hright.sound (hsc.mono hle) (henv.mono hle) hvoid').bind fun W₂ d' _ _ => ?_
    exact BinaryOp.sound_equality hfamily
  | .ternary hcond hTrue hFalse hfits hfits' _ => by
    intro hvoid
    refine (hcond.sound hsc henv Ty.boolean_ne_void).bind fun W₁ d hle _ => ?_
    have hsc₁ := hsc.mono hle
    have henv₁ := henv.mono hle
    split
    · have hTrue := hTrue.sound hsc₁ henv₁ (hfits.ne_void_of_ne hvoid)
      exact hTrue.mono fun _ _ _ hd => hd.fits hfits
    · have hFalse := hFalse.sound hsc₁ henv₁ (hfits'.ne_void_of_ne hvoid)
      exact hFalse.mono fun _ _ _ hd => hd.fits hfits'
  | .ref htarget _ => fun _ => htarget.sound hsc henv
  | .index htarget hsubscript _ => by
    intro _
    refine (htarget.sound hsc henv).bind fun W₁ array hle harray => ?_
    have hsubscript := hsubscript.sound (hsc.mono hle) (henv.mono hle) Ty.int_ne_void
    refine hsubscript.bind fun W₂ i hle' hi => ?_
    refine (sound_element (harray.mono hle') hi).bind fun W₃ place _ hplace => ?_
    obtain ⟨n, rfl, hcell⟩ := hplace
    exact sound_load hcell
  | .call hcallee hargs _ => by
    intro hvoid
    obtain ⟨hbinding, info, hkind⟩ := hcallee.kind
    refine (hargs.sound hsc henv (hsc.voidFree.params _)).bind fun W₁ ds hle hds => ?_
    have hsc₁ := hsc.mono hle
    have howner := fun hstatic => hcallee.sound_evalOwner hsc₁ (henv.mono hle) hkind hstatic
    refine (hsc₁.sound_call hbinding hkind howner hds).bind fun W₂ result _ hresult => ?_
    cases result with
    | none => exact absurd hresult hvoid
    | some d => exact sound_pure hresult.2
  | .newObject hbound hkind hcls _ => by
    intro _
    simp only [eval, hbound, hsc.sig]
    refine sound_newObject.mono fun W₁ d _ hd => ?_
    obtain rfl | rfl := hcls
    · exact hd
    · trivial
  | .newArray _ hsize _ => by
    intro _
    refine (hsize.sound hsc henv Ty.int_ne_void).bind fun W₁ d _ hd => ?_
    exact sound_newArray hd

/-- Arguments that fit parameters evaluate to values of the types of the parameters. -/
theorem ArgsFit.sound {W : HeapTyping} (hsc : sc.Typed Γ W) (henv : env.Typed Γ.sig W vars)
    {args : List Expr} {params : List SymbolId}
    (hvoid : ∀ p ∈ params, (Γ.sig.typeOf p).avoidsVoid = true) : ArgsFit Γ vars args params →
      Sound Γ.sig W (evalAll sc env args) fun W' =>
        (List.Forall₂ (fun d p => d.HasTy Γ.sig W' (Γ.sig.typeOf p)) · params)
  | .nil => sound_pure .nil
  | .cons harg hfits hrest => by
    have harg := harg.sound hsc henv (hfits.ne_void (hvoid _ List.mem_cons_self))
    refine harg.bind fun W₁ d hle hd => ?_
    have hrest := hrest.sound (hsc.mono hle) (henv.mono hle)
      fun p hmem => hvoid p (List.mem_cons_of_mem _ hmem)
    refine hrest.bind fun W₂ ds hle' hds => ?_
    exact sound_pure (.cons ((hd.mono hle').fits hfits) hds)

end

end Expr

end SmallJava
