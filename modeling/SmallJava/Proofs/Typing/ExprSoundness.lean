import SmallJava.Proofs.Typing.ReferenceSoundness
import SmallJava.Proofs.Typing.Rules

namespace SmallJava

/-- The arguments, with the types found for them. -/
inductive Expr.ArgsTyped (Γ : Context) (vars : List SymbolId) : List (Expr × Ty) → Prop
  | nil : ArgsTyped Γ vars []
  | cons {arg τ rest} (harg : Expr.HasType Γ vars arg τ) (hknown : τ.isKnown = true)
      (hrest : ArgsTyped Γ vars rest) : ArgsTyped Γ vars ((arg, τ) :: rest)

/-- Written types denote what they are resolved to. -/
theorem Env.Sound.denotes_of_resolve {env : Env} {Γ : Context} {vars : List SymbolId}
    (henv : env.Sound Γ vars) {type : TypeExpr} {ty : Ty}
    (hresolve : type.resolve env.scope env.builtins = .ok ty) : type.Denotes Γ.sig ty := by
  induction type generalizing ty with
  | int | boolean | void =>
    cases hresolve
    constructor
  | named span name =>
    unfold TypeExpr.resolve at hresolve
    split at hresolve
    next cls hcls =>
      cases hresolve
      obtain ⟨info, hkind⟩ := henv.classes name cls hcls
      unfold Builtins.instanceTy
      split
      · exact .string
      · exact .cls (henv.within cls _ hkind).1
    next => cases hresolve
  | array span elem ih =>
    unfold TypeExpr.resolve at hresolve
    cases helem : elem.resolve env.scope env.builtins with
    | error fatal => simp [helem, Except.map] at hresolve
    | ok elemTy =>
      simp only [helem, Except.map] at hresolve
      cases hresolve
      exact .array (ih helem)

namespace Typing

variable {env : Env} {Γ : Context} {vars : List SymbolId}

/-- Arguments about which nothing is reported fit their parameters. -/
theorem argsFit_of_arguments (henv : env.Sound Γ vars) {method : String} {position : Nat}
    {params : List SymbolId} {args : List (Expr × Ty)}
    (hparams : ∀ p ∈ params, env.table.kind? p = some .param)
    (hargs : Expr.ArgsTyped Γ vars args) (hlength : params.length = args.length)
    (h : arguments env.table method position params args = []) :
    Expr.ArgsFit Γ vars (args.map (·.1)) params := by
  induction hargs generalizing position params with
  | nil =>
    obtain rfl := List.length_eq_zero_iff.1 hlength
    exact .nil
  | @cons arg τ rest harg hknown _ ih =>
    cases params with
    | nil => cases hlength
    | cons p params =>
      obtain ⟨hp, hparams⟩ := List.forall_mem_cons.1 hparams
      unfold arguments at h
      dsimp only at h
      cases hagrees : (env.table.typeOf p).agrees τ with
      | false => simp [hagrees] at h
      | true =>
        rw [hagrees, if_pos rfl] at h
        have hfits := Ty.fits_of_agrees (henv.coherent.written p _ hp) hknown hagrees
        rw [← (henv.within p _ hp).2] at hfits
        exact .cons harg hfits (ih hparams (Nat.succ.inj hlength) h)

/-- A call without a mistake is the call of a method with arguments that fit. -/
theorem call_eq (henv : env.Sound Γ vars) {callee : Reference} {calleeTy ty : Ty}
    {args : List (Expr × Ty)} {span : Span} (hdenotes : callee.Denotes Γ vars calleeTy)
    (hargs : Expr.ArgsTyped Γ vars args) (h : call env.table callee args span = (ty, [])) :
    ∃ m, callee.Callee Γ vars m ∧ ty = Γ.sig.typeOf m ∧ ty.isWritten = true ∧
      Expr.ArgsFit Γ vars (args.map (·.1)) (Γ.sig.paramsOf m) := by
  unfold call at h
  split at h
  next m symbol hbound hget =>
    cases hmethod : symbol.kind.isMethod with
    | false => simp [hmethod] at h
    | true =>
    rw [hmethod, if_pos rfl] at h
    rw [hbound, Option.bind_some] at hget
    obtain ⟨info, hinfo⟩ : ∃ info, symbol.kind = .method info := by
      cases hkind : symbol.kind <;> simp [hkind, SymbolKind.isMethod, SymbolKind.method?] at hmethod
      exact ⟨_, rfl⟩
    have hkind : env.table.kind? m = some (.method info) := by
      simp [SymbolTable.kind?, hget, hinfo]
    have hty : env.table.typeOf m = symbol.ty := by simp [SymbolTable.typeOf, hget]
    have hparams : env.table.paramsOf m = info.params := SymbolTable.paramsOf_eq hkind
    have hparams' := Γ.sig.paramsOf_of_method (henv.within m _ hkind).1
    have hcallee : callee.Callee Γ vars m := by
      have hfound := (henv.within m _ hkind).1
      cases hdenotes with
      | value hvalue =>
        obtain h | h | ⟨_, _, h⟩ | h := hvalue.kind hbound <;> rw [hfound] at h <;> cases h
      | cls hbound' hcls =>
        obtain rfl := Option.some.inj (hbound'.symm.trans hbound)
        rw [hfound] at hcls
        cases hcls
      | method hcallee =>
        obtain rfl := Option.some.inj (hcallee.kind.1.symm.trans hbound)
        exact hcallee
    dsimp only at h
    by_cases hlength : (env.table.paramsOf m).length = args.length
    · rw [if_pos hlength] at h
      obtain ⟨rfl, hclean⟩ := Prod.mk.inj h
      refine ⟨m, hcallee, ?_, ?_, ?_⟩
      · rw [(henv.within m _ hkind).2, hty]
      · rw [← hty]
        exact henv.coherent.written m _ hkind
      · rw [hparams] at hlength hclean
        rw [hparams']
        exact argsFit_of_arguments henv (henv.coherent.params m info · hkind) hargs hlength hclean
    · rw [if_neg hlength] at h
      simp at h
  next => simp at h

/-- A checked call names a method, and its arguments fit the parameters. -/
theorem checkCall_ensures (env : Env) (span : Span) (callee : Reference) (args : List Expr)
    {checkArgs : Check (List Expr) (List (Expr × Ty))}
    (hargs : checkArgs.Ensures fun found => ∀ Γ vars, env.Sound Γ vars →
      Expr.ArgsTyped Γ vars found) :
    (checkCall env span callee args checkArgs).Ensures fun found => ∀ Γ vars, env.Sound Γ vars →
      ∃ m, found.1.Callee Γ vars m ∧ found.2.2 = Γ.sig.typeOf m ∧ found.2.2.isWritten = true ∧
        Expr.ArgsFit Γ vars found.2.1 (Γ.sig.paramsOf m) := by
  refine (callee.check_ensures env _).bind fun ⟨callee', _⟩ => ?_
  refine (hargs.within _).bind fun args' => ?_
  refine Check.ensures_conclude.bind fun ty => ?_
  refine Check.ensures_pure fun hverdict hargs hcallee Γ vars henv => ?_
  exact call_eq henv (hcallee Γ vars henv).1 (hargs Γ vars henv) hverdict

end Typing

namespace Expr

open Typing

section Verdicts

variable {Γ : Context} {vars : List SymbolId} {annot : Annot} {span : Span} {τ τ' ty : Ty}
  {operand left right : Expr}

/-! A node is well typed with the type that the rule for it finds. -/

theorem unary_typed {op : UnaryOp} (hoperand : operand.HasType Γ vars τ) (hknown : τ.isKnown = true)
    (hverdict : Typing.unary op τ span = (ty, [])) :
    (unary { annot with ty := some ty } op operand).HasType Γ vars ty ∧ ty.isKnown = true := by
  obtain ⟨rfl, rfl, rfl⟩ | ⟨rfl, rfl, rfl⟩ := unary_eq hknown hverdict
  · exact ⟨.not hoperand rfl, rfl⟩
  · exact ⟨.neg hoperand rfl, rfl⟩

/-- An operator on which nothing is reported is typed. -/
theorem binary_typed {op : BinaryOp} (hleft : left.HasType Γ vars τ) (hknown : τ.isKnown = true)
    (hright : right.HasType Γ vars τ') (hknown' : τ'.isKnown = true)
    (hverdict : Typing.binary op τ τ' span = (ty, [])) :
    (binary { annot with ty := some ty } op left right).HasType Γ vars ty ∧ ty.isKnown = true := by
  have hrule := binary_eq hknown hknown' hverdict
  cases hfamily : op.family with
  | logical =>
    simp only [hfamily] at hrule
    obtain ⟨rfl, rfl, rfl⟩ := hrule
    exact ⟨.logical hfamily hleft hright rfl, rfl⟩
  | relational =>
    simp only [hfamily] at hrule
    obtain ⟨rfl, rfl, rfl⟩ := hrule
    exact ⟨.relational hfamily hleft hright rfl, rfl⟩
  | arithmetic =>
    simp only [hfamily] at hrule
    obtain ⟨rfl, rfl, rfl⟩ := hrule
    exact ⟨.arithmetic hfamily hleft hright rfl, rfl⟩
  | equality =>
    simp only [hfamily] at hrule
    obtain ⟨hvoid, hvoid', rfl⟩ := hrule
    exact ⟨.equality hfamily hleft hright hvoid hvoid' rfl, rfl⟩

/-- A new object of a class in scope is typed. -/
theorem newObject_typed {env : Env} {cls : Ident} {symbol : SymbolId} (henv : env.Sound Γ vars)
    (hclass : env.scope.class? cls.name = some symbol) :
    (newObject { annot with ty := some (env.builtins.instanceTy symbol) }
      { cls with binding := some symbol }).HasType Γ vars (env.builtins.instanceTy symbol) ∧
      (env.builtins.instanceTy symbol).isKnown = true := by
  obtain ⟨info, hkind⟩ := henv.classes _ _ hclass
  refine ⟨.newObject rfl (henv.within _ _ hkind).1 ?_ rfl, ?_⟩
  · unfold Builtins.instanceTy
    split
    · exact .inr rfl
    · exact .inl rfl
  · unfold Builtins.instanceTy
    split <;> rfl

end Verdicts

mutual

/-- An expression about which nothing is reported has the type it is given. -/
theorem analyze_ensures (env : Env) : (expr : Expr) → (analyze env expr).Ensures fun found =>
    ∀ Γ vars, env.Sound Γ vars → found.1.HasType Γ vars found.2 ∧ found.2.isKnown = true
  | int annot value => Check.ensures_pure fun _ _ _ => ⟨.int rfl, rfl⟩
  | bool annot value => Check.ensures_pure fun _ _ _ => ⟨.bool rfl, rfl⟩
  | null annot => Check.ensures_pure fun _ _ _ => ⟨.null rfl, rfl⟩
  | unary annot op operand => by
    refine ((analyze_ensures env operand).within _).bind fun ⟨operand', τ⟩ => ?_
    refine Check.ensures_conclude.bind fun ty => ?_
    refine Check.ensures_pure fun hverdict hoperand Γ vars henv => ?_
    obtain ⟨hoperand, hknown⟩ := hoperand Γ vars henv
    exact unary_typed hoperand hknown hverdict
  | binary annot op left right => by
    refine ((analyze_ensures env left).within _).bind fun ⟨left', τ⟩ => ?_
    refine ((analyze_ensures env right).within _).bind fun ⟨right', τ'⟩ => ?_
    refine Check.ensures_conclude.bind fun ty => ?_
    refine Check.ensures_pure fun hverdict hright hleft Γ vars henv => ?_
    obtain ⟨hleft, hknown⟩ := hleft Γ vars henv
    obtain ⟨hright, hknown'⟩ := hright Γ vars henv
    exact binary_typed hleft hknown hright hknown' hverdict
  | ternary annot cond onTrue onFalse => by
    refine ((analyze_ensures env cond).within _).bind fun ⟨cond', condTy⟩ => ?_
    refine Check.ensures_report.bind fun _ => ?_
    refine ((analyze_ensures env onTrue).within _).bind fun ⟨onTrue', τ⟩ => ?_
    refine ((analyze_ensures env onFalse).within _).bind fun ⟨onFalse', τ'⟩ => ?_
    refine Check.ensures_conclude.bind fun ty => ?_
    refine Check.ensures_pure fun hverdict hFalse hTrue hrequired hcond Γ vars henv => ?_
    obtain ⟨hcond, hknown⟩ := hcond Γ vars henv
    obtain ⟨hTrue, hknown'⟩ := hTrue Γ vars henv
    obtain ⟨hFalse, hknown''⟩ := hFalse Γ vars henv
    obtain rfl := Ty.eq_boolean_of_agrees hknown (agrees_of_required hrequired)
    obtain ⟨hfits, hfits', hty⟩ := ternary_eq hknown' hknown'' hverdict
    exact ⟨.ternary hcond hTrue hFalse hfits hfits' rfl, hty⟩
  | ref annot target => by
    refine (target.check_ensures env _).bind fun ⟨target', targetTy⟩ => ?_
    refine Check.ensures_conclude.bind fun ty => ?_
    refine Check.ensures_pure fun hverdict htarget Γ vars henv => ?_
    obtain ⟨hdenotes, hwritten, hdeclared⟩ := htarget Γ vars henv
    obtain ⟨rfl, hcls, hmethod⟩ := value_eq hverdict
    exact ⟨.ref (henv.value_of_denotes hdenotes hdeclared hcls hmethod) rfl,
      Ty.isKnown_of_isWritten hwritten⟩
  | index annot target subscript => by
    refine (target.check_ensures env _).bind fun ⟨target', targetTy⟩ => ?_
    refine ((analyze_ensures env subscript).within _).bind fun ⟨subscript', subscriptTy⟩ => ?_
    refine Check.ensures_conclude.bind fun ty => ?_
    refine Check.ensures_report.bind fun _ => ?_
    refine Check.ensures_pure fun hrequired hverdict hsubscript htarget Γ vars henv => ?_
    obtain ⟨hdenotes, hwritten, hdeclared⟩ := htarget Γ vars henv
    obtain ⟨hsubscript, hknown⟩ := hsubscript Γ vars henv
    obtain ⟨rfl, hcls, hmethod⟩ := element_eq hwritten hverdict
    obtain rfl := Ty.eq_int_of_agrees hknown (agrees_of_required hrequired)
    refine ⟨.index (henv.value_of_denotes hdenotes hdeclared hcls hmethod) hsubscript rfl, ?_⟩
    exact Ty.isKnown_of_isWritten (by simpa [Ty.isWritten] using hwritten)
  | call annot callee args => by
    refine ((checkCall_ensures env _ callee args (analyzeAll_ensures env args)).within _).bind
      fun ⟨callee', args', ty⟩ => ?_
    refine Check.ensures_pure fun hcall Γ vars henv => ?_
    obtain ⟨m, hcallee, hty, hwritten, hargs⟩ := hcall Γ vars henv
    refine ⟨?_, Ty.isKnown_of_isWritten hwritten⟩
    change HasType Γ vars (call _ callee' args') ty
    obtain rfl : ty = Γ.sig.typeOf m := hty
    exact .call hcallee hargs rfl
  | newObject annot cls => by
    unfold analyze
    split
    next => exact Check.ensures_abort
    next symbol hclass => exact Check.ensures_pure fun Γ vars henv => newObject_typed henv hclass
  | newArray annot elem size => by
    refine Check.ensures_orAbort.bind fun elemTy => ?_
    refine ((analyze_ensures env size).within _).bind fun ⟨size', sizeTy⟩ => ?_
    refine Check.ensures_report.bind fun _ => ?_
    refine Check.ensures_pure fun hrequired hsize helem Γ vars henv => ?_
    obtain ⟨hsize, hknown⟩ := hsize Γ vars henv
    obtain rfl := Ty.eq_int_of_agrees hknown (agrees_of_required hrequired)
    refine ⟨.newArray (henv.denotes_of_resolve helem) hsize rfl, Ty.isKnown_of_isWritten ?_⟩
    simpa [Ty.isWritten] using TypeExpr.isWritten_of_resolve helem

/-- Arguments on which nothing is reported are typed. -/
theorem analyzeAll_ensures (env : Env) : (args : List Expr) →
    (analyzeAll env args).Ensures fun found => ∀ Γ vars, env.Sound Γ vars → ArgsTyped Γ vars found
  | [] => Check.ensures_pure fun _ _ _ => .nil
  | arg :: rest => by
    refine ((analyze_ensures env arg).within _).bind fun ⟨arg', τ⟩ => ?_
    refine ((analyzeAll_ensures env rest).within _).bind fun rest' => ?_
    refine Check.ensures_pure fun hrest harg Γ vars henv => ?_
    exact .cons (harg Γ vars henv).1 (harg Γ vars henv).2 (hrest Γ vars henv)

end

end Expr

end SmallJava
