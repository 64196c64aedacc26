import SmallJava.Proofs.Acceptance.Passes
import SmallJava.Proofs.Acceptance.Paths
import SmallJava.Proofs.Typing.ExprSoundness

namespace SmallJava

open Check

theorem Reference.check_accepts {ν : Type} (env : Env) (rebuild : Reference → ν) (ref : Reference) :
    (ref.check env rebuild).Accepts fun found => ref.analyze env = .ok found := by
  unfold check
  cases ref.analyze env with
  | ok found => exact accepts_pure.congr fun _ => by simp [eq_comm]
  | error found => exact accepts_abort.congr fun _ => by simp

/-- A call is accepted when its callee resolves, its arguments are accepted, and they fit. -/
theorem Typing.checkCall_accepts (env : Env) (span : Span) (callee : Reference) (args : List Expr) :
    (checkCall env span callee args (Expr.analyzeAll env args)).Accepts fun result =>
      ∃ callee', callee.analyze env = .ok callee' ∧
        ∃ args', (Expr.analyzeAll env args).Passes args' ∧
          ∃ ty, call env.table callee'.1 args' span = (ty, []) ∧
            result = (callee'.1, args'.map (·.1), ty) := by
  refine (callee.check_accepts env _).bind fun _ => ?_
  refine ((accepts_passes (Expr.analyzeAll_ensures env args)).within _).bind fun _ => ?_
  refine accepts_conclude.bind fun _ => ?_
  exact accepts_pure

namespace Expr

variable {env : Env} {annot : Annot}

/-! What it takes to analyse an expression without a report. -/

/-- A unary expression passes with its operand, if the operator takes it. -/
theorem accepts_unary {op : UnaryOp} {operand : Expr} :
    (analyze env (.unary annot op operand)).Accepts fun found =>
      ∃ operand', (analyze env operand).Passes operand' ∧
        ∃ ty, Typing.unary op operand'.2 annot.span = (ty, []) ∧
          found = (.unary { annot with ty := some ty } op operand'.1, ty) := by
  have hoperand := accepts_passes (analyze_ensures env operand)
  refine (hoperand.within _).bind fun _ => ?_
  refine accepts_conclude.bind fun _ => ?_
  exact accepts_pure

/-- A binary expression passes with its operands, if the operator takes them together. -/
theorem accepts_binary {op : BinaryOp} {left right : Expr} :
    (analyze env (.binary annot op left right)).Accepts fun found =>
      ∃ left', (analyze env left).Passes left' ∧ ∃ right', (analyze env right).Passes right' ∧
        ∃ ty, Typing.binary op left'.2 right'.2 annot.span = (ty, []) ∧
          found = (.binary { annot with ty := some ty } op left'.1 right'.1, ty) := by
  have hleft := accepts_passes (analyze_ensures env left)
  have hright := accepts_passes (analyze_ensures env right)
  refine (hleft.within _).bind fun _ => ?_
  refine (hright.within _).bind fun _ => ?_
  refine accepts_conclude.bind fun _ => ?_
  exact accepts_pure

/-- A choice passes with its three parts, if the condition is a truth value and the branches agree.
-/
theorem accepts_ternary {cond onTrue onFalse : Expr} :
    (analyze env (.ternary annot cond onTrue onFalse)).Accepts fun found =>
      ∃ cond', (analyze env cond).Passes cond' ∧ Typing.required env.table "ternary condition" .boolean
        cond'.2 cond'.1.span = [] ∧ ∃ onTrue', (analyze env onTrue).Passes onTrue' ∧
          ∃ onFalse', (analyze env onFalse).Passes onFalse' ∧
            ∃ ty, Typing.ternary env.table onTrue'.2 onFalse'.2 annot.span = (ty, []) ∧
              found = (.ternary { annot with ty := some ty } cond'.1 onTrue'.1 onFalse'.1, ty) := by
  have hcond := accepts_passes (analyze_ensures env cond)
  have hTrue := accepts_passes (analyze_ensures env onTrue)
  have hFalse := accepts_passes (analyze_ensures env onFalse)
  refine (hcond.within _).bind fun _ => ?_
  refine .after_report ?_
  refine (hTrue.within _).bind fun _ => ?_
  refine (hFalse.within _).bind fun _ => ?_
  refine accepts_conclude.bind fun _ => ?_
  exact accepts_pure

theorem accepts_ref {target : Reference} :
    (analyze env (.ref annot target)).Accepts fun found =>
      ∃ target', target.analyze env = .ok target' ∧
        ∃ ty, Typing.value env.table target'.1 target'.2 = (ty, []) ∧
          found = (.ref { annot with ty := some ty } target'.1, ty) := by
  refine (target.check_accepts env _).bind fun _ => ?_
  refine accepts_conclude.bind fun _ => ?_
  exact accepts_pure

/-- An element passes with its array and its index, if these are an array and an integer. -/
theorem accepts_index {target : Reference} {subscript : Expr} :
    (analyze env (.index annot target subscript)).Accepts fun found =>
      ∃ target', target.analyze env = .ok target' ∧
        ∃ subscript', (analyze env subscript).Passes subscript' ∧
          ∃ ty, Typing.element env.table target'.1 target'.2 annot.span = (ty, []) ∧
            Typing.required env.table "array index" .int subscript'.2 subscript'.1.span = [] ∧
              found = (.index { annot with ty := some ty } target'.1 subscript'.1, ty) := by
  have hsubscript := accepts_passes (analyze_ensures env subscript)
  refine (target.check_accepts env _).bind fun _ => ?_
  refine (hsubscript.within _).bind fun _ => ?_
  refine accepts_conclude.bind fun _ => ?_
  refine .after_report ?_
  exact accepts_pure

/-- A call in an expression passes as a call does; its type is that of the result. -/
theorem accepts_call {callee : Reference} {args : List Expr} :
    (analyze env (.call annot callee args)).Accepts fun found =>
      ∃ result : Reference × List Expr × Ty, (∃ callee', callee.analyze env = .ok callee' ∧
        ∃ args', (analyzeAll env args).Passes args' ∧
          ∃ ty, Typing.call env.table callee'.1 args' annot.span = (ty, []) ∧
            result = (callee'.1, args'.map (·.1), ty)) ∧
        found = (.call { annot with ty := some result.2.2 } result.1 result.2.1, result.2.2) := by
  have hcall := Typing.checkCall_accepts env annot.span callee args
  refine (hcall.within _).bind fun _ => ?_
  exact accepts_pure

/-- The creation of an object passes if there is a class of the name. -/
theorem accepts_newObject {cls : Ident} :
    (analyze env (.newObject annot cls)).Accepts fun found => ∃ c, env.scope.class? cls.name = some c ∧
      found = (.newObject { annot with ty := some (env.builtins.instanceTy c) }
        { cls with binding := some c }, env.builtins.instanceTy c) := by
  unfold analyze
  cases hcls : env.scope.class? cls.name with
  | none => exact accepts_abort.congr fun _ => by simp
  | some c => exact accepts_pure.congr fun _ => by simp

/-- The creation of an array passes with its size, if the element type resolves. -/
theorem accepts_newArray {elem : TypeExpr} {size : Expr} :
    (analyze env (.newArray annot elem size)).Accepts fun found =>
      ∃ elemTy, elem.resolve env.scope env.builtins = .ok elemTy ∧
        ∃ size', (analyze env size).Passes size' ∧
          Typing.required env.table "array size" .int size'.2 size'.1.span = [] ∧
            found = (.newArray { annot with ty := some (.array elemTy) } elem size'.1,
              .array elemTy) := by
  have hsize := accepts_passes (analyze_ensures env size)
  refine accepts_orAbort.bind fun _ => ?_
  refine (hsize.within _).bind fun _ => ?_
  refine .after_report ?_
  exact accepts_pure

theorem accepts_all_nil : (analyzeAll env []).Accepts (· = []) := accepts_pure

theorem accepts_all_cons {arg : Expr} {rest : List Expr} :
    (analyzeAll env (arg :: rest)).Accepts fun found =>
      ∃ arg', (analyze env arg).Passes arg' ∧
        ∃ rest', (analyzeAll env rest).Passes rest' ∧ found = arg' :: rest' := by
  have harg := accepts_passes (analyze_ensures env arg)
  have hrest := accepts_passes (analyzeAll_ensures env rest)
  refine (harg.within _).bind fun _ => ?_
  refine (hrest.within _).bind fun _ => ?_
  exact accepts_pure

end Expr

section Correspondence

variable {env : Env} {decls : List ClassDef} {cls : ClassDef} {E : Source.Env}

/-- Arguments of these types fit the parameters. -/
def Source.Accepting (classes : List Source.ClassSig) (params : List TypeExpr)
    (types : List Source.Ty) : Prop :=
  List.Forall₂ (fun param τ => ∃ expected, Source.Denotes classes param expected ∧
    expected.Matches τ) params types

/-- Arguments fit one by one: each has a type, and the parameter at its position accepts it. -/
theorem Source.argsFit_iff {params : List TypeExpr} {args : List Expr} :
    Source.ArgsFit E params args ↔ ∃ types, List.Forall₂ (Source.HasType E) args types ∧
      Source.Accepting E.classes params types := by
  constructor
  · intro h
    induction args generalizing params with
    | nil =>
      cases h
      exact ⟨[], .nil, .nil⟩
    | cons arg rest ih =>
      cases h with
      | cons hparam harg hmatches hargs =>
        obtain ⟨types, htypes, haccepting⟩ := ih hargs
        exact ⟨_ :: types, .cons harg htypes, .cons ⟨_, hparam, hmatches⟩ haccepting⟩
  · rintro ⟨types, htypes, haccepting⟩
    induction htypes generalizing params with
    | nil =>
      cases haccepting
      exact .nil
    | cons harg _ ih =>
      cases haccepting with
      | cons hparam hrest =>
        obtain ⟨expected, hdenotes, hmatches⟩ := hparam
        exact .cons hdenotes harg hmatches (ih hrest)

namespace Typing

variable {b : Bindings}

/-- Nothing is wrong with arguments exactly if their types fit. -/
theorem arguments_eq_nil_iff (h : b.Knows decls) (name : String) (position : Nat)
    {params : List ParamDef} {ids : List SymbolId} {args : List (Expr × Ty)}
    {types : List Source.Ty} (hparams : List.Forall₂ (ParamDef.DeclaredAt b) params ids)
    (htypes : List.Forall₂ (fun arg τ => arg.2.Means decls τ) args types) :
    ids.length = args.length ∧ arguments b.table name position ids args = [] ↔
      Source.Accepting (decls.map ClassDef.sig) (params.map (·.type)) types := by
  induction hparams generalizing position args types with
  | nil =>
    cases htypes with
    | nil => exact iff_of_true ⟨rfl, rfl⟩ .nil
    | cons => exact iff_of_false (fun h => nomatch h.1) nofun
  | @cons param id params ids hparam _ ih =>
    cases htypes with
    | nil => exact iff_of_false (fun h => nomatch h.1) nofun
    | @cons arg τ args types harg hargs =>
      obtain ⟨expected, hmeans, hdenotes⟩ := (h.resolve_corresponds _).sound _ hparam.type
      have hagrees := hmeans.agrees_iff h.describes harg
      have hrest := ih (position + 1) hargs
      unfold arguments
      dsimp only
      constructor
      · rintro ⟨hlength, hnil⟩
        split at hnil
        next hfits =>
          exact .cons ⟨expected, hdenotes, hagrees.1 hfits⟩ (hrest.1 ⟨Nat.succ.inj hlength, hnil⟩)
        next => cases hnil
      · rintro (_ | ⟨⟨expected', hdenotes', hmatches⟩, haccepting⟩)
        obtain ⟨hlength, hnil⟩ := hrest.2 haccepting
        obtain ⟨ty, hmeans', hresolve⟩ := (h.resolve_corresponds _).complete _ hdenotes'
        obtain rfl := Except.ok.inj (hparam.type.symm.trans hresolve)
        obtain rfl := hmeans.unique h.describes hmeans'
        exact ⟨congrArg Nat.succ hlength, (if_pos (hagrees.2 hmatches)).trans hnil⟩

/-- A call of a method reports nothing if there are as many arguments as parameters and each fits.
-/
theorem call_of_method {table : SymbolTable} {callee : Reference} {m : SymbolId} {info : MethodInfo}
    {args : List (Expr × Ty)} {span : Span} {result : Ty} (hbound : callee.binding = some m)
    (hkind : table.kind? m = some (.method info)) :
    call table callee args span = (result, []) ↔ table.typeOf m = result ∧
      info.params.length = args.length ∧
        arguments table (table.nameOf m) 1 info.params args = [] := by
  have hparams : table.paramsOf m = info.params := SymbolTable.paramsOf_eq hkind
  obtain ⟨symbol, hget, hsymbol⟩ := Option.map_eq_some_iff.1 hkind
  have hmethod : symbol.kind.isMethod = true := by
    rw [hsymbol]
    rfl
  unfold call SymbolTable.typeOf SymbolTable.nameOf
  rw [hbound]
  simp only [Option.bind_some, hget, hmethod, ↓reduceIte, hparams, Option.map_some, Option.getD_some]
  by_cases hlength : info.params.length = args.length <;> simp [hlength]

/-- Only a method can be called. -/
theorem method_of_call {table : SymbolTable} {callee : Reference} {args : List (Expr × Ty)}
    {span : Span} {result : Ty} (h : call table callee args span = (result, [])) :
    ∃ info, callee.kind? table = some (.method info) := by
  unfold call at h
  split at h
  next m symbol hbound hget =>
    split at h
    next hmethod =>
      obtain ⟨info, hinfo⟩ := Option.isSome_iff_exists.1 hmethod
      have hkind : callee.kind? table = some symbol.kind := by
        rw [hbound, Option.bind_some] at hget
        unfold Reference.kind? SymbolTable.kind?
        rw [hbound, Option.bind_some, hget]
        rfl
      rw [hkind]
      cases hsymbol : symbol.kind with
      | method info => exact ⟨info, rfl⟩
      | _ =>
        rw [hsymbol] at hinfo
        cases hinfo
    next => cases h
  next => cases h

/-- The callee of a call has to be a method, and its parameters have to fit. -/
theorem call_corresponds (h : b.Knows decls) {callee : Reference} {ty : Ty}
    {entity : Source.Entity} {args : List (Expr × Ty)} {types : List Source.Ty} {span : Span}
    (hcallee : callee.Stands b decls ty entity)
    (htypes : List.Forall₂ (fun arg τ => arg.2.Means decls τ) args types) :
    Corresponds (Ty.Means decls) (fun result => call b.table callee args span = (result, []))
      fun τ => ∃ sig, entity = .method sig ∧
        Source.Accepting (decls.map ClassDef.sig) sig.params types ∧
          Source.Denotes (decls.map ClassDef.sig) sig.returnType τ := by
  have hkind := hcallee.kind h.describes
  -- Anything but a method is reported, and the rules allow no call of it either.
  have hnot : (∀ info, callee.kind? b.table ≠ some (.method info)) → (∀ sig, entity ≠ .method sig) →
      Corresponds (Ty.Means decls) (fun result => call b.table callee args span = (result, []))
        fun τ => ∃ sig, entity = .method sig ∧
          Source.Accepting (decls.map ClassDef.sig) sig.params types ∧
            Source.Denotes (decls.map ClassDef.sig) sig.returnType τ := by
    intro hkinds hentity
    constructor
    · intro result hcall
      obtain ⟨info, hmethod⟩ := method_of_call hcall
      exact absurd hmethod (hkinds info)
    · rintro τ ⟨sig, hsig, -⟩
      exact absurd hsig (hentity sig)
  cases entity with
  | place τ =>
    obtain ⟨kind, hkind, hplace⟩ := hkind
    refine hnot (fun info hmethod => ?_) nofun
    obtain rfl := Option.some.inj (hkind.symm.trans hmethod)
    cases hplace
  | value τ =>
    refine hnot (fun info hmethod => ?_) nofun
    obtain ⟨annot, rfl⟩ | hkind := hkind
    · cases hmethod
    · cases hkind.symm.trans hmethod
  | cls sig =>
    obtain ⟨info, hkind⟩ := hkind
    exact hnot (fun info' hmethod => by cases hkind.symm.trans hmethod) nofun
  | method sig =>
    clear hnot hkind
    generalize hentity : Source.Entity.method sig = entity at hcallee
    cases hcallee with
    | this => cases hentity
    | @symbol _ m _ hbound hstands =>
      cases hstands with
      | @method method owner params hdeclared =>
        obtain rfl := Source.Entity.method.inj hentity
        have harguments :=
          arguments_eq_nil_iff h (b.table.nameOf m) 1 hdeclared.params htypes
        simp only [call_of_method hbound hdeclared.kind, harguments]
        constructor
        · rintro _ ⟨rfl, haccepting⟩
          obtain ⟨τ, hmeans, hdenotes⟩ := (h.resolve_corresponds _).sound _ hdeclared.type
          exact ⟨τ, hmeans, _, rfl, haccepting, hdenotes⟩
        · rintro τ ⟨sig, hsig, haccepting, hdenotes⟩
          obtain rfl := Source.Entity.method.inj hsig
          obtain ⟨ty, hmeans, hresolve⟩ := (h.resolve_corresponds _).complete _ hdenotes
          obtain rfl := Except.ok.inj (hdeclared.type.symm.trans hresolve)
          exact ⟨_, hmeans, rfl, haccepting⟩
      | _ => cases hentity

end Typing

/-- A call is analysed without a report exactly if the rules allow it. -/
theorem Typing.checkCall_corresponds (h : env.Models decls cls E) (callee : Reference)
    {args : List Expr} (span : Span) (hargs : Corresponds
      (fun found types => List.Forall₂ (fun arg τ => arg.2.Means decls τ) found types)
      (Expr.analyzeAll env args).Passes (List.Forall₂ (Source.HasType E) args)) :
    Corresponds (fun result τ => result.2.2.Means decls τ)
      (checkCall env span callee args (Expr.analyzeAll env args)).Passes
      fun τ => ∃ sig, Source.Refers E callee (.method sig) ∧ Source.ArgsFit E sig.params args ∧
        Source.Denotes E.classes sig.returnType τ := by
  have hcallee := callee.analyze_corresponds h
  rw [h.models.classes]
  constructor
  · intro result hresult
    obtain ⟨callee', hcallee', args', hargs', ty, hcall, rfl⟩ :=
      ((checkCall_accepts env span callee args).iff result).1 hresult
    obtain ⟨entity, hstands, hrefers⟩ := hcallee.sound _ hcallee'
    obtain ⟨types, hmeans, htypes⟩ := hargs.sound _ hargs'
    obtain ⟨τ, hty, sig, rfl, haccepting, hdenotes⟩ :=
      (call_corresponds h.models.knows hstands hmeans).sound _ hcall
    refine ⟨τ, hty, sig, hrefers, Source.argsFit_iff.2 ⟨types, htypes, ?_⟩, hdenotes⟩
    rwa [h.models.classes]
  · rintro τ ⟨sig, hrefers, hfit, hdenotes⟩
    obtain ⟨types, htypes, haccepting⟩ := Source.argsFit_iff.1 hfit
    rw [h.models.classes] at haccepting
    obtain ⟨callee', hstands, hcallee'⟩ := hcallee.complete _ hrefers
    obtain ⟨args', hmeans, hargs'⟩ := hargs.complete _ htypes
    obtain ⟨ty, hty, hcall⟩ := (call_corresponds h.models.knows hstands hmeans).complete τ
      ⟨sig, rfl, haccepting, hdenotes⟩
    exact ⟨_, hty, ((checkCall_accepts env span callee args).iff _).2
      ⟨callee', hcallee', args', hargs', ty, hcall, rfl⟩⟩

namespace Expr

/-- The analysis reports nothing on an expression exactly if the rules give it a type, and then it
has found that type. -/
def AgreesOn (env : Env) (decls : List ClassDef) (E : Source.Env) (expr : Expr) : Prop :=
  Corresponds (fun found τ => found.2.Means decls τ) (analyze env expr).Passes (Source.HasType E expr)

/-- The same for all of a list. -/
def AgreesOnAll (env : Env) (decls : List ClassDef) (E : Source.Env) (exprs : List Expr) : Prop :=
  Corresponds (fun found types => List.Forall₂ (fun arg τ => arg.2.Means decls τ) found types)
    (analyzeAll env exprs).Passes (List.Forall₂ (Source.HasType E) exprs)

/-! One step for each construct: it is agreed on if its parts are. -/

/-- A literal has one type in the judgement and the same one in the analysis. -/
theorem literal_agrees {expr : Expr} {found : Expr × Ty} {τ : Source.Ty}
    (hanalyze : analyze env expr = pure found) (hmeans : found.2.Means decls τ)
    (htype : Source.HasType E expr τ) (honly : ∀ τ', Source.HasType E expr τ' → τ' = τ) :
    AgreesOn env decls E expr := by
  constructor
  · intro found' hfound
    rw [hanalyze] at hfound
    obtain rfl := (accepts_pure.iff found').1 hfound
    exact ⟨τ, hmeans, htype⟩
  · intro τ' htype'
    obtain rfl := honly τ' htype'
    refine ⟨found, hmeans, ?_⟩
    rw [hanalyze]
    exact (accepts_pure.iff found).2 rfl

/-- The rule for unary operators, given agreement on the operand. -/
theorem unary_agrees {annot : Annot} {op : UnaryOp} {operand : Expr}
    (hoperand : AgreesOn env decls E operand) : AgreesOn env decls E (.unary annot op operand) := by
  constructor
  · intro found hfound
    obtain ⟨operand', hpasses, ty, hresult, rfl⟩ := (accepts_unary.iff _).1 hfound
    obtain ⟨τ, hmeans, htype⟩ := hoperand.sound _ hpasses
    obtain ⟨τ', hmeans', htyped⟩ := (Typing.unary_corresponds hmeans).sound ty hresult
    exact ⟨τ', hmeans', .unary htype htyped⟩
  · intro τ' htype
    cases htype with
    | unary htype htyped =>
      obtain ⟨operand', hmeans, hpasses⟩ := hoperand.complete _ htype
      obtain ⟨ty, hmeans', hresult⟩ := (Typing.unary_corresponds hmeans).complete τ' htyped
      exact ⟨_, hmeans', (accepts_unary.iff _).2 ⟨operand', hpasses, ty, hresult, rfl⟩⟩

/-- The rule for binary operators, given agreement on both operands. -/
theorem binary_agrees (h : env.Models decls cls E) {annot : Annot} {op : BinaryOp}
    {left right : Expr} (hleft : AgreesOn env decls E left) (hright : AgreesOn env decls E right) :
    AgreesOn env decls E (.binary annot op left right) := by
  have hdescribes := h.models.knows.describes
  constructor
  · intro found hfound
    obtain ⟨left', hpasses, right', hpasses', ty, hresult, rfl⟩ := (accepts_binary.iff _).1 hfound
    obtain ⟨τ, hmeans, htype⟩ := hleft.sound _ hpasses
    obtain ⟨τ', hmeans', htype'⟩ := hright.sound _ hpasses'
    obtain ⟨result, hty, htyped⟩ :=
      (Typing.binary_corresponds hdescribes hmeans hmeans').sound ty hresult
    exact ⟨result, hty, .binary htype htype' htyped⟩
  · intro result htype
    cases htype with
    | binary htype htype' htyped =>
      obtain ⟨left', hmeans, hpasses⟩ := hleft.complete _ htype
      obtain ⟨right', hmeans', hpasses'⟩ := hright.complete _ htype'
      obtain ⟨ty, hty, hresult⟩ :=
        (Typing.binary_corresponds hdescribes hmeans hmeans').complete result htyped
      exact ⟨_, hty, (accepts_binary.iff _).2 ⟨left', hpasses, right', hpasses', ty, hresult, rfl⟩⟩

/-- The rule for a choice, given agreement on its parts. Of the two branch types the analysis keeps
the one the judgement names. -/
theorem ternary_agrees (h : env.Models decls cls E) {annot : Annot} {cond onTrue onFalse : Expr}
    (hcond : AgreesOn env decls E cond) (htrue : AgreesOn env decls E onTrue)
    (hfalse : AgreesOn env decls E onFalse) :
    AgreesOn env decls E (.ternary annot cond onTrue onFalse) := by
  have hdescribes := h.models.knows.describes
  constructor
  · intro found hfound
    obtain ⟨cond', hpasses, hrequired, onTrue', hpasses', onFalse', hpasses'', ty, hresult, rfl⟩ :=
      (accepts_ternary.iff _).1 hfound
    obtain ⟨τ, hmeans, htype⟩ := hcond.sound _ hpasses
    obtain rfl := hmeans.agrees_boolean_iff.1 (Typing.required_eq_nil_iff.1 hrequired)
    obtain ⟨τ', hmeans', htype'⟩ := htrue.sound _ hpasses'
    obtain ⟨τ'', hmeans'', htype''⟩ := hfalse.sound _ hpasses''
    obtain ⟨hagrees, rfl⟩ := (Typing.ternary_eq_iff hmeans' hmeans'').1 hresult
    exact ⟨_, hmeans'.choice hmeans'', .ternary htype htype' htype''
      ((hmeans'.agrees_iff hdescribes hmeans'').1 hagrees)⟩
  · intro result htype
    cases htype with
    | ternary htype htype' htype'' hmatches =>
      obtain ⟨cond', hmeans, hpasses⟩ := hcond.complete _ htype
      obtain ⟨onTrue', hmeans', hpasses'⟩ := htrue.complete _ htype'
      obtain ⟨onFalse', hmeans'', hpasses''⟩ := hfalse.complete _ htype''
      have hrequired := hmeans.agrees_boolean_iff.2 rfl
      have hagrees := (hmeans'.agrees_iff hdescribes hmeans'').2 hmatches
      exact ⟨_, hmeans'.choice hmeans'', (accepts_ternary.iff _).2 ⟨cond', hpasses,
        Typing.required_eq_nil_iff.2 hrequired, onTrue', hpasses', onFalse', hpasses'', _,
          (Typing.ternary_eq_iff hmeans' hmeans'').2 ⟨hagrees, rfl⟩, rfl⟩⟩

/-- A path has as an expression the type of the entity that it refers to, if that has one. -/
theorem ref_agrees (h : env.Models decls cls E) {annot : Annot} {target : Reference} :
    AgreesOn env decls E (.ref annot target) := by
  have htarget := target.analyze_corresponds h
  have hdescribes := h.models.knows.describes
  constructor
  · intro found hfound
    obtain ⟨target', hanalyze, ty, hvalue, rfl⟩ := (accepts_ref.iff _).1 hfound
    obtain ⟨entity, hstands, hrefers⟩ := htarget.sound _ hanalyze
    obtain ⟨τ, hmeans, hτ⟩ := (Typing.value_corresponds hdescribes hstands).sound ty hvalue
    exact ⟨τ, hmeans, .ref hrefers hτ⟩
  · intro τ htype
    cases htype with
    | ref hrefers hτ =>
      obtain ⟨target', hstands, hanalyze⟩ := htarget.complete _ hrefers
      obtain ⟨ty, hmeans, hvalue⟩ := (Typing.value_corresponds hdescribes hstands).complete τ hτ
      exact ⟨_, hmeans, (accepts_ref.iff _).2 ⟨target', hanalyze, ty, hvalue, rfl⟩⟩

/-- The rule for an element of an array, given agreement on the index. -/
theorem index_agrees (h : env.Models decls cls E) {annot : Annot} {target : Reference}
    {subscript : Expr} (hsubscript : AgreesOn env decls E subscript) :
    AgreesOn env decls E (.index annot target subscript) := by
  have htarget := target.analyze_corresponds h
  have hdescribes := h.models.knows.describes
  constructor
  · intro found hfound
    obtain ⟨target', hanalyze, subscript', hpasses, ty, helem, hrequired, rfl⟩ :=
      (accepts_index.iff _).1 hfound
    obtain ⟨entity, hstands, hrefers⟩ := htarget.sound _ hanalyze
    obtain ⟨τ, hmeans, htype⟩ := hsubscript.sound _ hpasses
    obtain rfl := hmeans.agrees_int_iff.1 (Typing.required_eq_nil_iff.1 hrequired)
    obtain ⟨elem, hmeans', hτ⟩ := (Typing.element_corresponds hdescribes hstands).sound ty helem
    exact ⟨elem, hmeans', .index hrefers hτ htype⟩
  · intro elem htype
    cases htype with
    | index hrefers hτ htype =>
      obtain ⟨target', hstands, hanalyze⟩ := htarget.complete _ hrefers
      obtain ⟨subscript', hmeans, hpasses⟩ := hsubscript.complete _ htype
      obtain ⟨ty, hmeans', helem⟩ := (Typing.element_corresponds hdescribes hstands).complete _ hτ
      have hrequired := hmeans.agrees_int_iff.2 rfl
      exact ⟨_, hmeans', (accepts_index.iff _).2 ⟨target', hanalyze, subscript', hpasses, ty, helem,
        Typing.required_eq_nil_iff.2 hrequired, rfl⟩⟩

/-- The rule for a call, given agreement on all arguments. -/
theorem call_agrees (h : env.Models decls cls E) {annot : Annot} {callee : Reference}
    {args : List Expr} (hargs : AgreesOnAll env decls E args) :
    AgreesOn env decls E (.call annot callee args) := by
  have hcall := Typing.checkCall_corresponds h callee annot.span hargs
  have haccepts := (Typing.checkCall_accepts env annot.span callee args).iff
  constructor
  · intro found hfound
    obtain ⟨result, hresult, rfl⟩ := (accepts_call.iff _).1 hfound
    obtain ⟨τ, hmeans, sig, hrefers, hfit, hdenotes⟩ :=
      hcall.sound result ((haccepts result).2 hresult)
    exact ⟨τ, hmeans, .call hrefers hfit hdenotes⟩
  · intro τ htype
    cases htype with
    | call hrefers hfit hdenotes =>
      obtain ⟨result, hmeans, hresult⟩ := hcall.complete τ ⟨_, hrefers, hfit, hdenotes⟩
      exact ⟨_, hmeans, (accepts_call.iff _).2 ⟨result, (haccepts result).1 hresult, rfl⟩⟩

/-- The type of a new object is the one that declarations give to the class name. -/
theorem newObject_agrees (h : env.Models decls cls E) {annot : Annot} {name : Ident} :
    AgreesOn env decls E (.newObject annot name) := by
  have hnamed := h.models.knows.named_corresponds name.span name.name
  rw [← h.models.classes] at hnamed
  constructor
  · intro found hfound
    obtain ⟨c, hclass, rfl⟩ := (accepts_newObject.iff _).1 hfound
    obtain ⟨τ, hmeans, hdenotes⟩ := hnamed.sound _ ⟨c, hclass, rfl⟩
    exact ⟨τ, hmeans, .newObject hdenotes⟩
  · intro τ htype
    cases htype with
    | newObject hdenotes =>
      obtain ⟨ty, hmeans, c, hclass, rfl⟩ := hnamed.complete τ hdenotes
      exact ⟨_, hmeans, (accepts_newObject.iff _).2 ⟨c, hclass, rfl⟩⟩

/-- The rule for a new array, given agreement on its size. -/
theorem newArray_agrees (h : env.Models decls cls E) {annot : Annot} {elem : TypeExpr} {size : Expr}
    (hsize : AgreesOn env decls E size) : AgreesOn env decls E (.newArray annot elem size) := by
  have helem := h.models.knows.resolve_corresponds elem
  rw [← h.models.classes] at helem
  constructor
  · intro found hfound
    obtain ⟨elemTy, hresolve, size', hpasses, hrequired, rfl⟩ := (accepts_newArray.iff _).1 hfound
    obtain ⟨τ, hmeans, hdenotes⟩ := helem.sound _ hresolve
    obtain ⟨τ', hmeans', htype⟩ := hsize.sound _ hpasses
    obtain rfl := hmeans'.agrees_int_iff.1 (Typing.required_eq_nil_iff.1 hrequired)
    exact ⟨_, .array hmeans, .newArray hdenotes htype⟩
  · intro τ htype
    cases htype with
    | newArray hdenotes htype =>
      obtain ⟨elemTy, hmeans, hresolve⟩ := helem.complete _ hdenotes
      obtain ⟨size', hmeans', hpasses⟩ := hsize.complete _ htype
      have hrequired := hmeans'.agrees_int_iff.2 rfl
      exact ⟨_, .array hmeans, (accepts_newArray.iff _).2 ⟨elemTy, hresolve, size', hpasses,
        Typing.required_eq_nil_iff.2 hrequired, rfl⟩⟩

theorem nil_agrees : AgreesOnAll env decls E [] := by
  constructor
  · intro found hfound
    obtain rfl := (accepts_all_nil.iff _).1 hfound
    exact ⟨[], .nil, .nil⟩
  · rintro _ ⟨⟩
    exact ⟨[], .nil, (accepts_all_nil.iff _).2 rfl⟩

/-- Agreement on a list of arguments, given agreement on the first and on the others. -/
theorem cons_agrees {arg : Expr} {rest : List Expr} (harg : AgreesOn env decls E arg)
    (hrest : AgreesOnAll env decls E rest) : AgreesOnAll env decls E (arg :: rest) := by
  constructor
  · intro found hfound
    obtain ⟨arg', hpasses, rest', hpasses', rfl⟩ := (accepts_all_cons.iff _).1 hfound
    obtain ⟨τ, hmeans, htype⟩ := harg.sound _ hpasses
    obtain ⟨types, hmeans', htypes⟩ := hrest.sound _ hpasses'
    exact ⟨τ :: types, .cons hmeans hmeans', .cons htype htypes⟩
  · intro types htypes
    cases htypes with
    | cons htype htypes =>
      obtain ⟨arg', hmeans, hpasses⟩ := harg.complete _ htype
      obtain ⟨rest', hmeans', hpasses'⟩ := hrest.complete _ htypes
      exact ⟨_, .cons hmeans hmeans', (accepts_all_cons.iff _).2 ⟨arg', hpasses, rest', hpasses', rfl⟩⟩

mutual

/-- An expression is analysed without a report exactly if the rules give it a type, and then it
has that type. -/
theorem analyze_corresponds (h : env.Models decls cls E) : (expr : Expr) →
    AgreesOn env decls E expr
  | .int .. => literal_agrees rfl .int .int fun | _, .int => rfl
  | .bool .. => literal_agrees rfl .boolean .bool fun | _, .bool => rfl
  | .null _ => literal_agrees rfl .null .null fun | _, .null => rfl
  | .unary _ _ operand => unary_agrees (analyze_corresponds h operand)
  | .binary _ _ left right =>
    binary_agrees h (analyze_corresponds h left) (analyze_corresponds h right)
  | .ternary _ cond onTrue onFalse =>
    ternary_agrees h (analyze_corresponds h cond) (analyze_corresponds h onTrue)
      (analyze_corresponds h onFalse)
  | .ref .. => ref_agrees h
  | .index _ _ subscript => index_agrees h (analyze_corresponds h subscript)
  | .call _ _ args => call_agrees h (analyzeAll_corresponds h args)
  | .newObject .. => newObject_agrees h
  | .newArray _ _ size => newArray_agrees h (analyze_corresponds h size)

theorem analyzeAll_corresponds (h : env.Models decls cls E) : (args : List Expr) →
    AgreesOnAll env decls E args
  | [] => nil_agrees
  | arg :: rest => cons_agrees (analyze_corresponds h arg) (analyzeAll_corresponds h rest)

end

end Expr

end Correspondence

end SmallJava
