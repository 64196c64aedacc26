import SmallJava.Proofs.Analysis.Agrees
import SmallJava.Proofs.Analysis.Erase

/-! Analysis does not look at what an earlier analysis recorded. -/

namespace SmallJava

open Check

/-- A path is analysed as if nothing was recorded in it. -/
theorem Reference.analyze_erase (env : Env) (ref : Reference) :
    (∃ found, ref.analyze env = .ok found ∧ ref.erase.analyze env = .ok found) ∨
      ∃ left left' fatal, ref.analyze env = .error (left, fatal) ∧
        ref.erase.analyze env = .error (left', fatal) := by
  induction ref with
  | this annot =>
    unfold erase analyze
    cases env.method.isStatic with
    | true => exact .inr ⟨_, _, _, rfl, rfl⟩
    | false => exact .inl ⟨_, rfl, rfl⟩
  | ident annot name =>
    have hname : env.symbolNamed name.erase = env.symbolNamed name := rfl
    unfold erase analyze
    rw [hname]
    cases env.symbolNamed name with
    | error fatal => exact .inr ⟨_, _, _, rfl, rfl⟩
    | ok symbol => exact .inl ⟨_, rfl, rfl⟩
  | member annot owner name ih =>
    unfold erase analyze
    obtain ⟨⟨owner', ownerTy⟩, howner, howner'⟩ | ⟨left, left', fatal, howner, howner'⟩ := ih
    · have hname : env.memberOf owner' ownerTy name.erase = env.memberOf owner' ownerTy name := rfl
      rw [howner, howner']
      dsimp only
      rw [hname]
      cases env.memberOf owner' ownerTy name with
      | error fatal => exact .inr ⟨_, _, _, rfl, rfl⟩
      | ok symbol => exact .inl ⟨_, rfl, rfl⟩
    · rw [howner, howner']
      exact .inr ⟨_, _, _, rfl, rfl⟩

/-- A path is analysed like its erasure, within any two nodes. -/
theorem Reference.check_agrees {μ ν : Type} (env : Env) (rebuild : Reference → ν)
    (rebuild' : Reference → μ) (ref : Reference) :
    (ref.check env rebuild).Agrees (ref.erase.check env rebuild') (· = ·) := by
  unfold Reference.check
  obtain ⟨found, hfound, hfound'⟩ | ⟨left, left', fatal, hfound, hfound'⟩ := ref.analyze_erase env
  · rw [hfound, hfound']
    exact agrees_pure rfl
  · rw [hfound, hfound']
    exact agrees_abort fatal

/-- Two calls are analysed alike if their callees differ in what is recorded only and their
arguments are analysed alike. -/
theorem Typing.checkCall_agrees (env : Env) (span : Span) (callee : Reference)
    (args args' : List Expr) {checkArgs checkArgs' : Check (List Expr) (List (Expr × Ty))}
    (hargs : checkArgs.Agrees checkArgs' (· = ·)) :
    (checkCall env span callee args checkArgs).Agrees
      (checkCall env span callee.erase args' checkArgs') (· = ·) := by
  refine (callee.check_agrees env _ _).bind_same fun ⟨callee', _⟩ => ?_
  refine (hargs.within _ _).bind_same fun found => ?_
  exact (agrees_conclude _).bind_same fun _ => agrees_pure rfl

namespace Expr

mutual

/-- An expression is analysed as if nothing was recorded in it. -/
theorem analyze_agrees (env : Env) : (expr : Expr) →
    (analyze env expr).Agrees (analyze env expr.erase) (· = ·)
  | int annot value => agrees_pure rfl
  | bool annot value => agrees_pure rfl
  | null annot => agrees_pure rfl
  | unary annot op operand => by
    refine ((analyze_agrees env operand).within _ _).bind_same fun _ => ?_
    refine (agrees_conclude _).bind_same fun _ => ?_
    exact agrees_pure rfl
  | binary annot op left right => by
    refine ((analyze_agrees env left).within _ _).bind_same fun _ => ?_
    refine ((analyze_agrees env right).within _ _).bind_same fun _ => ?_
    refine (agrees_conclude _).bind_same fun _ => ?_
    exact agrees_pure rfl
  | ternary annot cond onTrue onFalse => by
    refine ((analyze_agrees env cond).within _ _).bind_same fun _ => ?_
    refine (agrees_report _).bind_same fun _ => ?_
    refine ((analyze_agrees env onTrue).within _ _).bind_same fun _ => ?_
    refine ((analyze_agrees env onFalse).within _ _).bind_same fun _ => ?_
    refine (agrees_conclude _).bind_same fun _ => ?_
    exact agrees_pure rfl
  | ref annot target => by
    refine (target.check_agrees env _ _).bind_same fun _ => ?_
    refine (agrees_conclude _).bind_same fun _ => ?_
    exact agrees_pure rfl
  | index annot target subscript => by
    refine (target.check_agrees env _ _).bind_same fun _ => ?_
    refine ((analyze_agrees env subscript).within _ _).bind_same fun _ => ?_
    refine (agrees_conclude _).bind_same fun _ => ?_
    refine (agrees_report _).bind_same fun _ => ?_
    exact agrees_pure rfl
  | call annot callee args =>
    ((Typing.checkCall_agrees env _ callee args (eraseAll args) (analyzeAll_agrees env args)).within
      _ _).bind_same fun _ => agrees_pure rfl
  | newObject annot cls => by
    have hname : cls.erase.name = cls.name := rfl
    unfold erase analyze
    rw [hname]
    cases env.scope.class? cls.name with
    | none => exact agrees_abort _
    | some symbol => exact agrees_pure rfl
  | newArray annot elem size => by
    refine (agrees_orAbort _).bind_same fun _ => ?_
    refine ((analyze_agrees env size).within _ _).bind_same fun _ => ?_
    refine (agrees_report _).bind_same fun _ => ?_
    exact agrees_pure rfl

theorem analyzeAll_agrees (env : Env) : (args : List Expr) →
    (analyzeAll env args).Agrees (analyzeAll env (eraseAll args)) (· = ·)
  | [] => agrees_pure rfl
  | arg :: rest => by
    refine ((analyze_agrees env arg).within _ _).bind_same fun _ => ?_
    refine ((analyzeAll_agrees env rest).within _ _).bind_same fun _ => ?_
    exact agrees_pure rfl

end

theorem checkCondition_agrees (construct : String) (cond : Expr) (env : Env) :
    (cond.checkCondition construct env).Agrees (cond.erase.checkCondition construct env) (· = ·) := by
  refine (cond.analyze_agrees env).bind_same fun _ => ?_
  refine (agrees_report _).bind_same fun _ => ?_
  exact agrees_pure rfl

end Expr

open Walk

theorem Walk.agrees_inEnv {μ ν α : Type} {method : MethodContext} {part : Env → Check ν α}
    {other : Env → Check μ α} (h : ∀ env, (part env).Agrees (other env) (· = ·)) :
    (inEnv method part).Agrees (inEnv method other) (· = ·) :=
  agrees_get.bind_same fun _ => agrees_lift (h _)

namespace Stmt

theorem span_erase (stmt : Stmt) : stmt.erase.span = stmt.span := by
  cases stmt <;> rfl

theorem branch_erase (stmt : Stmt) : Typing.branch stmt.erase = Typing.branch stmt := by
  unfold Typing.branch
  rw [span_erase]
  cases stmt <;> rfl

/-- A declaration is analysed like its erasure. -/
theorem analyzeVarDecl_agrees (method : MethodContext) (span : Span) (var : LocalDef)
    (init : Expr) : (analyzeVarDecl method span var init).Agrees
      (analyzeVarDecl method span var.erase init.erase) (· = ·) := by
  refine agrees_get.bind_same fun bindings => ?_
  refine (Walk.agrees_orAbort _).bind_same fun ty => ?_
  refine (Walk.agrees_orAbort _).bind_same fun scope => ?_
  refine (agrees_set _).bind_same fun _ => ?_
  refine (agrees_lift ((init.analyze_agrees _).within _ _)).bind_same fun found => ?_
  exact (Walk.agrees_report _).bind_same fun _ => Walk.agrees_pure rfl

theorem analyzeAssign_agrees (span : Span) (target : Reference) (value : Expr) (env : Env) :
    (analyzeAssign span target value env).Agrees
      (analyzeAssign span target.erase value.erase env) (· = ·) := by
  refine (target.check_agrees env _ _).bind_same fun _ => ?_
  refine ((value.analyze_agrees env).within _ _).bind_same fun _ => ?_
  refine (Check.agrees_report _).bind_same fun _ => ?_
  exact Check.agrees_pure rfl

/-- An assignment to an element is analysed like its erasure. -/
theorem analyzeIndexAssign_agrees (span : Span) (target : Reference) (subscript value : Expr)
    (env : Env) : (analyzeIndexAssign span target subscript value env).Agrees
      (analyzeIndexAssign span target.erase subscript.erase value.erase env) (· = ·) := by
  refine (target.check_agrees env _ _).bind_same fun _ => ?_
  refine ((subscript.analyze_agrees env).within _ _).bind_same fun _ => ?_
  refine ((value.analyze_agrees env).within _ _).bind_same fun _ => ?_
  refine (agrees_conclude _).bind_same fun _ => ?_
  refine (Check.agrees_report _).bind_same fun _ => ?_
  refine (Check.agrees_report _).bind_same fun _ => ?_
  exact Check.agrees_pure rfl

theorem analyzeCall_agrees (span : Span) (callee : Reference) (args : List Expr) (env : Env) :
    (analyzeCall span callee args env).Agrees
      (analyzeCall span callee.erase (Expr.eraseAll args) env) (· = ·) := by
  have hargs := Expr.analyzeAll_agrees env args
  have hcall := Typing.checkCall_agrees env span callee args (Expr.eraseAll args) hargs
  exact (hcall.within _ _).bind_same fun _ => Check.agrees_pure rfl

/-- A return is analysed like its erasure. -/
theorem analyzeReturn_agrees (span : Span) (value : Option Expr) (env : Env) :
    (analyzeReturn span value env).Agrees
      (analyzeReturn span (value.map Expr.erase) env) (· = ·) := by
  cases value with
  | none => exact (Check.agrees_report _).bind_same fun _ => Check.agrees_pure rfl
  | some value =>
    refine ((value.analyze_agrees env).within _ _).bind_same fun _ => ?_
    refine (Check.agrees_report _).bind_same fun _ => ?_
    exact Check.agrees_pure rfl

/-- A branch is reported by its form, which erasure does not change. -/
theorem analyzeBranch_agrees {stmt : Stmt} {analysis analysis' : Walk Stmt Stmt}
    (h : analysis.Agrees analysis' (· = ·)) :
    (analyzeBranch stmt analysis).Agrees (analyzeBranch stmt.erase analysis') (· = ·) := by
  unfold analyzeBranch
  rw [branch_erase]
  refine (Walk.agrees_report _).bind_same fun _ => ?_
  refine (agrees_onScope _).bind_same fun _ => ?_
  refine h.bind_same fun _ => ?_
  refine (agrees_onScope _).bind_same fun _ => ?_
  exact Walk.agrees_pure rfl

/-- The condition of a loop is analysed like its erasure, if there is one. -/
theorem loopCond_agrees (method : MethodContext) (cond : Option Expr) :
    Agrees
      (match cond with
        | none => pure none
        | some cond => some <$> within some (inEnv method (cond.checkCondition "for")) :
          Walk (Option Expr) (Option Expr))
      (match cond.map Expr.erase with
        | none => pure none
        | some cond => some <$> within some (inEnv method (cond.checkCondition "for")) :
          Walk (Option Expr) (Option Expr)) (· = ·) := by
  cases cond with
  | none => exact Walk.agrees_pure rfl
  | some cond =>
    exact ((agrees_inEnv (cond.checkCondition_agrees "for")).within some some).map
      fun _ _ => congrArg some

mutual

/-- A statement is analysed as if nothing was recorded in it. -/
theorem analyze_agrees (method : MethodContext) : (stmt : Stmt) →
    (analyze method stmt).Agrees (analyze method stmt.erase) (· = ·)
  | block _ stmts => by
    refine (agrees_onScope _).bind_same fun _ => ?_
    refine ((analyzeAll_agrees method stmts).within _ _).bind_same fun _ => ?_
    refine (agrees_onScope _).bind_same fun _ => ?_
    exact Walk.agrees_pure rfl
  | varDecl span var init => analyzeVarDecl_agrees method span var init
  | assign span target value => agrees_inEnv (analyzeAssign_agrees span target value)
  | indexAssign span target subscript value =>
    agrees_inEnv (analyzeIndexAssign_agrees span target subscript value)
  | call span callee args => agrees_inEnv (analyzeCall_agrees span callee args)
  | .return span value => agrees_inEnv (analyzeReturn_agrees span value)
  | ifElse _ cond onTrue none => by
    refine ((agrees_inEnv (cond.checkCondition_agrees "if")).within _ _).bind_same fun _ => ?_
    refine ((analyzeBranch_agrees (analyze_agrees method onTrue)).within _ _).bind_same fun _ => ?_
    exact Walk.agrees_pure rfl
  | ifElse _ cond onTrue (some onFalse) => by
    refine ((agrees_inEnv (cond.checkCondition_agrees "if")).within _ _).bind_same fun _ => ?_
    refine ((analyzeBranch_agrees (analyze_agrees method onTrue)).within _ _).bind_same fun _ => ?_
    refine ((analyzeBranch_agrees (analyze_agrees method onFalse)).within _ _).bind_same fun _ => ?_
    exact Walk.agrees_pure rfl
  | .while _ cond body => by
    refine ((agrees_inEnv (cond.checkCondition_agrees "while")).within _ _).bind_same fun _ => ?_
    refine ((analyzeBranch_agrees (analyze_agrees method body)).within _ _).bind_same fun _ => ?_
    exact Walk.agrees_pure rfl
  | .for _ init cond update body => by
    refine (agrees_onScope _).bind_same fun _ => ?_
    refine ((analyzeOption_agrees method init).within _ _).bind_same fun _ => ?_
    refine ((loopCond_agrees method cond).within _ _).bind_same fun _ => ?_
    refine ((analyzeOption_agrees method update).within _ _).bind_same fun _ => ?_
    refine ((analyzeBranch_agrees (analyze_agrees method body)).within _ _).bind_same fun _ => ?_
    refine (agrees_onScope _).bind_same fun _ => ?_
    exact Walk.agrees_pure rfl

theorem analyzeOption_agrees (method : MethodContext) : (stmt : Option Stmt) →
    (analyzeOption method stmt).Agrees (analyzeOption method (eraseOption stmt)) (· = ·)
  | none => Walk.agrees_pure rfl
  | some stmt => ((analyze_agrees method stmt).within some some).map fun _ _ => congrArg some

theorem analyzeAll_agrees (method : MethodContext) : (stmts : List Stmt) →
    (analyzeAll method stmts).Agrees (analyzeAll method (eraseAll stmts)) (· = ·)
  | [] => Walk.agrees_pure rfl
  | stmt :: rest => by
    refine ((analyze_agrees method stmt).within _ _).bind_same fun _ => ?_
    refine ((analyzeAll_agrees method rest).within _ _).bind_same fun _ => ?_
    exact Walk.agrees_pure rfl

end

/-- Statements that differ only in what is recorded in them are analysed alike. -/
theorem analyzeAll_congr (method : MethodContext) {stmts stmts' : List Stmt}
    (h : eraseAll stmts = eraseAll stmts') :
    (analyzeAll method stmts).Agrees (analyzeAll method stmts') (· = ·) :=
  (analyzeAll_agrees method stmts).of_common (h ▸ analyzeAll_agrees method stmts')

end Stmt

/-- Lists that are the same up to `f`, member by member. -/
theorem List.forall₂_of_map_eq {α β : Type} {f : α → β} {l l' : List α} (h : l.map f = l'.map f) :
    List.Forall₂ (fun a a' => f a = f a') l l' := by
  have hsame : List.Forall₂ (· = ·) (l.map f) (l'.map f) := List.forall₂_eq_eq_eq ▸ h
  simpa only [List.forall₂_map_left_iff, List.forall₂_map_right_iff] using hsame

section Declarations

theorem Walk.declareTyped_agrees {ν : Type} (node node' : ν) (type : TypeExpr)
    (declare : SymbolTable → Ty → Except Diagnostic SymbolTable) :
    (declareTyped node type declare).Agrees (declareTyped node' type declare) (· = ·) := by
  refine agrees_get.bind_same fun _ => ?_
  refine (Walk.agrees_orAbort _).bind_same fun _ => ?_
  refine (Walk.agrees_orAbort _).bind_same fun _ => ?_
  refine (agrees_set _).bind_same fun _ => ?_
  exact Walk.agrees_pure rfl

/-- Fields that erase to the same are declared alike. -/
theorem FieldDef.declare_agrees (cls : SymbolId) (className : String) {field field' : FieldDef}
    (h : field.erase = field'.erase) :
    (field.declare cls className).Agrees (field'.declare cls className) (· = ·) := by
  obtain ⟨modifiers, type, name, span, old⟩ := field
  obtain ⟨modifiers', type', name', span', old'⟩ := field'
  obtain ⟨rfl, rfl, rfl, rfl, -⟩ := FieldDef.mk.inj h
  exact (declareTyped_agrees _ _ _ _).bind_same fun _ => Walk.agrees_pure rfl

theorem ParamDef.declare_agrees {param param' : ParamDef} (h : param.erase = param'.erase) :
    param.declare.Agrees param'.declare (· = ·) := by
  obtain ⟨type, name, span, old⟩ := param
  obtain ⟨type', name', span', old'⟩ := param'
  obtain ⟨rfl, rfl, rfl, -⟩ := ParamDef.mk.inj h
  exact (declareTyped_agrees _ _ _ _).bind_same fun _ => Walk.agrees_pure rfl

/-- Bound methods that differ only in what is recorded in their bodies. -/
structure MethodDef.SameHead (method method' : MethodDef) : Prop where
  erase : method.erase = method'.erase
  bound : method.binding.isSome
  binding : method.binding = method'.binding
  params : method.params = method'.params

/-- Bound classes that differ only in what is recorded in their members. -/
structure ClassDef.SameName (cls cls' : ClassDef) : Prop where
  erase : cls.erase = cls'.erase
  bound : cls.binding.isSome
  binding : cls.binding = cls'.binding

/-- Bound classes that differ only in what is recorded in their bodies. -/
structure ClassDef.SameMembers (cls cls' : ClassDef) : Prop extends SameName cls cls' where
  fields : cls.fields = cls'.fields
  methods : List.Forall₂ MethodDef.SameHead cls.methods cls'.methods

/-- Methods that erase to the same are declared alike; their bodies, which are not looked at yet,
may still differ in what is recorded. -/
theorem MethodDef.declare_agrees (cls : SymbolId) (className : String) {method method' : MethodDef}
    (h : method.erase = method'.erase) :
    (method.declare cls className).Agrees (method'.declare cls className) SameHead := by
  obtain ⟨modifiers, returnType, name, params, body, span, old⟩ := method
  obtain ⟨modifiers', returnType', name', params', body', span', old'⟩ := method'
  obtain ⟨rfl, rfl, rfl, hparams, hbody, rfl, -⟩ := MethodDef.mk.inj h
  have heach : (each ParamDef.declare params).Agrees (each ParamDef.declare params') (· = ·) :=
    agrees_each_same (fun _ _ h => ParamDef.declare_agrees h) (List.forall₂_of_map_eq hparams)
  refine (declareTyped_agrees _ _ _ _).bind_same fun symbol => ?_
  refine (heach.within _ _).bind_same fun found => ?_
  refine (agrees_modify _).bind_same fun _ => Walk.agrees_pure ⟨?_, rfl, rfl, rfl⟩
  dsimp only at hbody
  simp [erase, hbody]

/-- Classes that erase to the same are named alike. -/
theorem ClassDef.declare_agrees {cls cls' : ClassDef} (h : cls.erase = cls'.erase) :
    cls.declare.Agrees cls'.declare SameName := by
  obtain ⟨name, fields, methods, span, old⟩ := cls
  obtain ⟨name', fields', methods', span', old'⟩ := cls'
  obtain ⟨rfl, hfields, hmethods, rfl, -⟩ := ClassDef.mk.inj h
  refine agrees_get.bind_same fun b => ?_
  dsimp only
  split
  next => exact agrees_lift (Check.agrees_abort _)
  next =>
    refine (agrees_set _).bind_same fun _ => Walk.agrees_pure ⟨?_, rfl, rfl⟩
    dsimp only at hfields hmethods
    simp [erase, hfields, hmethods]

/-- Classes that are named alike get the same members. -/
theorem ClassDef.declareMembers_agrees {cls cls' : ClassDef} (h : cls.SameName cls') :
    cls.declareMembers.Agrees cls'.declareMembers SameMembers := by
  obtain ⟨herase, hbound, hbinding⟩ := h
  obtain ⟨symbol, hsymbol⟩ := Option.isSome_iff_exists.1 hbound
  obtain ⟨name, fields, methods, span, binding⟩ := cls
  obtain ⟨name', fields', methods', span', binding'⟩ := cls'
  obtain ⟨rfl, hfields, hmethods, rfl, -⟩ := ClassDef.mk.inj herase
  dsimp only at hsymbol hbinding hfields hmethods
  subst hbinding hsymbol
  have heachField : (each (FieldDef.declare symbol name) fields).Agrees
      (each (FieldDef.declare symbol name) fields') (· = ·) :=
    agrees_each_same (fun _ _ h => FieldDef.declare_agrees symbol name h)
      (List.forall₂_of_map_eq hfields)
  have heachMethod : (each (MethodDef.declare symbol name) methods).Agrees
      (each (MethodDef.declare symbol name) methods') (List.Forall₂ MethodDef.SameHead) :=
    agrees_each (fun _ _ h => MethodDef.declare_agrees symbol name h)
      (List.forall₂_of_map_eq hmethods)
  unfold declareMembers
  refine (heachField.within _ _).bind_same fun found => ?_
  refine (heachMethod.within _ _).bind fun found found' hsame =>
    Walk.agrees_pure ⟨⟨?_, rfl, rfl⟩, rfl, hsame⟩
  have herased : found.map MethodDef.erase = found'.map MethodDef.erase := by
    rw [← List.forall₂_eq_eq_eq, List.forall₂_map_left_iff, List.forall₂_map_right_iff]
    exact hsame.imp fun _ _ h => h.erase
  simp [erase, herased]

/-- Methods that are declared alike are analysed alike. -/
theorem MethodDef.analyze_agrees (cls : SymbolId) {method method' : MethodDef}
    (h : method.SameHead method') : (method.analyze cls).Agrees (method'.analyze cls) (· = ·) := by
  obtain ⟨herase, hbound, hbinding, hparams⟩ := h
  obtain ⟨symbol, hsymbol⟩ := Option.isSome_iff_exists.1 hbound
  obtain ⟨modifiers, returnType, name, params, body, span, binding⟩ := method
  obtain ⟨modifiers', returnType', name', params', body', span', binding'⟩ := method'
  obtain ⟨rfl, rfl, rfl, -, hbody, rfl, -⟩ := MethodDef.mk.inj herase
  dsimp only at hsymbol hbinding hparams hbody
  subst hbinding hsymbol hparams
  refine (agrees_onScope _).bind_same fun _ => ?_
  refine ((Walk.Agrees.refl _).within _ _).bind_same fun params => ?_
  refine agrees_get.bind_same fun b => ?_
  refine ((Stmt.analyzeAll_congr _ hbody).within _ _).bind_same fun body => ?_
  exact (Walk.agrees_report _).bind_same fun _ => Walk.agrees_pure rfl

/-- Classes with the same members are analysed alike. -/
theorem ClassDef.analyze_agrees {cls cls' : ClassDef} (h : cls.SameMembers cls') :
    cls.analyze.Agrees cls'.analyze (· = ·) := by
  obtain ⟨⟨herase, hbound, hbinding⟩, hfields, hmethods⟩ := h
  obtain ⟨symbol, hsymbol⟩ := Option.isSome_iff_exists.1 hbound
  obtain ⟨name, fields, methods, span, binding⟩ := cls
  obtain ⟨name', fields', methods', span', binding'⟩ := cls'
  obtain ⟨rfl, -, -, rfl, -⟩ := ClassDef.mk.inj herase
  dsimp only at hsymbol hbinding hfields hmethods
  subst hbinding hsymbol hfields
  have heach : (each (MethodDef.analyze symbol) methods).Agrees
      (each (MethodDef.analyze symbol) methods') (· = ·) :=
    agrees_each_same (fun _ _ h => MethodDef.analyze_agrees symbol h) hmethods
  refine agrees_get.bind_same fun b => ?_
  refine (agrees_onScope _).bind_same fun _ => ?_
  exact (heach.within _ _).bind_same fun _ => Walk.agrees_pure rfl

/-- Classes that differ only in what is recorded in them are analysed alike. -/
theorem ClassDef.analyzeAll_agrees {classes classes' : List ClassDef}
    (h : classes.map erase = classes'.map erase) :
    (analyzeAll classes).Agrees (analyzeAll classes') (· = ·) := by
  have hnames : (each declare classes).Agrees (each declare classes') (List.Forall₂ SameName) :=
    agrees_each (fun _ _ h => declare_agrees h) (List.forall₂_of_map_eq h)
  refine hnames.bind fun named named' hnamed => ?_
  have hmembers : (each declareMembers named).Agrees (each declareMembers named')
      (List.Forall₂ SameMembers) := agrees_each (fun _ _ h => declareMembers_agrees h) hnamed
  refine hmembers.bind fun declared declared' hdeclared => ?_
  exact agrees_each_same (fun _ _ h => analyze_agrees h) hdeclared

end Declarations

/-- Two analyses report the same and come to the same outcome. Unless they are cut short, they
also leave the same tree. -/
structure Analyzed.Same (analyzed other : Analyzed) : Prop where
  log : analyzed.log = other.log
  analysis? : analyzed.analysis? = other.analysis?
  package : analyzed.analysis?.isSome → analyzed.package = other.package

namespace Package

/-- Programs that differ only in what is recorded in them are analysed alike. -/
theorem analyze_same {package other : Package} (h : package.erase = other.erase) :
    package.analyze.Same other.analyze := by
  obtain ⟨classes, span⟩ := package
  obtain ⟨classes', span'⟩ := other
  obtain ⟨hclasses, rfl⟩ := Package.mk.inj h
  have hout : SameOutcome _ (((ClassDef.analyzeAll classes).run .initial).run [])
      (((ClassDef.analyzeAll classes').run .initial).run []) :=
    ClassDef.analyzeAll_agrees hclasses .initial []
  unfold analyze
  dsimp only
  generalize ((ClassDef.analyzeAll classes).run .initial).run [] = left at hout ⊢
  generalize ((ClassDef.analyzeAll classes').run .initial).run [] = right at hout ⊢
  cases hout with
  | @ok result result' log hsame =>
    obtain ⟨found, b⟩ := result
    obtain ⟨found', b'⟩ := result'
    obtain ⟨rfl, rfl⟩ : found = found' ∧ b = b' := hsame
    exact ⟨rfl, rfl, fun _ => rfl⟩
  | error => exact ⟨rfl, rfl, fun hsome => by cases hsome⟩

/-- Analysis only writes annotations, also when it is cut short, and never reads those that it
finds: programs that differ only in what is recorded in them are analysed alike. So the analysis
of an analysed program repeats what the first one said. -/
theorem analysis_ignores_annotations (package : Package) :
    package.analyze.package.erase = package.erase ∧
      (∀ other : Package, other.erase = package.erase → other.analyze.Same package.analyze) ∧
        package.analyze.package.analyze.Same package.analyze :=
  ⟨package.erase_analyze, fun _ => analyze_same, analyze_same package.erase_analyze⟩

end Package

end SmallJava
