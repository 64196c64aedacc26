import SmallJava.Analysis.Package
import SmallJava.Proofs.Analysis.Yields

namespace SmallJava

/-! Trees without what analysis records in them. -/

def Annot.erase (annot : Annot) : Annot := { annot with ty := none }

def Ident.erase (name : Ident) : Ident := { name with binding := none }

def Reference.erase : Reference → Reference
  | .this annot => .this annot.erase
  | .ident annot name => .ident annot.erase name.erase
  | .member annot owner name => .member annot.erase owner.erase name.erase

namespace Expr

mutual

def erase : Expr → Expr
  | int annot value => int annot.erase value
  | bool annot value => bool annot.erase value
  | null annot => null annot.erase
  | unary annot op operand => unary annot.erase op operand.erase
  | binary annot op left right => binary annot.erase op left.erase right.erase
  | ternary annot cond onTrue onFalse => ternary annot.erase cond.erase onTrue.erase onFalse.erase
  | ref annot target => ref annot.erase target.erase
  | index annot target subscript => index annot.erase target.erase subscript.erase
  | call annot callee args => call annot.erase callee.erase (eraseAll args)
  | newObject annot cls => newObject annot.erase cls.erase
  | newArray annot elem size => newArray annot.erase elem size.erase

def eraseAll : List Expr → List Expr
  | [] => []
  | expr :: rest => expr.erase :: eraseAll rest

end

end Expr

def LocalDef.erase (var : LocalDef) : LocalDef := { var with binding := none }

namespace Stmt

mutual

def erase : Stmt → Stmt
  | block span stmts => block span (eraseAll stmts)
  | varDecl span var init => varDecl span var.erase init.erase
  | assign span target value => assign span target.erase value.erase
  | indexAssign span target subscript value =>
    indexAssign span target.erase subscript.erase value.erase
  | call span callee args => call span callee.erase (Expr.eraseAll args)
  | .return span value => .return span (value.map Expr.erase)
  | ifElse span cond onTrue onFalse => ifElse span cond.erase onTrue.erase (eraseOption onFalse)
  | .while span cond body => .while span cond.erase body.erase
  | .for span init cond update body =>
    .for span (eraseOption init) (cond.map Expr.erase) (eraseOption update) body.erase

def eraseOption : Option Stmt → Option Stmt
  | none => none
  | some stmt => some stmt.erase

def eraseAll : List Stmt → List Stmt
  | [] => []
  | stmt :: rest => stmt.erase :: eraseAll rest

end

end Stmt

def FieldDef.erase (field : FieldDef) : FieldDef := { field with binding := none }

def ParamDef.erase (param : ParamDef) : ParamDef := { param with binding := none }

def MethodDef.erase (method : MethodDef) : MethodDef :=
  { method with
    params := method.params.map ParamDef.erase
    body := Stmt.eraseAll method.body
    binding := none }

def ClassDef.erase (cls : ClassDef) : ClassDef :=
  { cls with
    fields := cls.fields.map FieldDef.erase
    methods := cls.methods.map MethodDef.erase
    binding := none }

def Package.erase (package : Package) : Package :=
  { package with classes := package.classes.map ClassDef.erase }

open Check

/-- Analysis of a path records something in it and changes nothing else. -/
theorem Reference.erase_analyze (env : Env) (ref : Reference) :
    match ref.analyze env with
    | .ok found => found.1.erase = ref.erase
    | .error found => found.1.erase = ref.erase := by
  induction ref with
  | this annot =>
    unfold analyze
    cases env.method.isStatic <;> rfl
  | ident annot name =>
    unfold analyze
    cases env.symbolNamed name <;> rfl
  | member annot owner name ih =>
    unfold analyze
    cases howner : owner.analyze env with
    | error found =>
      rw [howner] at ih
      simpa [erase] using ih
    | ok found =>
      obtain ⟨owner', ownerTy⟩ := found
      rw [howner] at ih
      dsimp only
      cases env.memberOf owner' ownerTy name <;> simpa [erase, Ident.erase, Annot.erase] using ih

/-- The node around a path is rebuilt from a path that differs in what is recorded only. -/
theorem Reference.check_keeps {ν : Type} (env : Env) (rebuild : Reference → ν) (ref : Reference)
    {L : ν → Prop} (hrebuild : ∀ ref' : Reference, ref'.erase = ref.erase → L (rebuild ref')) :
    (ref.check env rebuild).Yields (fun found => found.1.erase = ref.erase) L := by
  have hsame := ref.erase_analyze env
  unfold check
  cases hanalyze : ref.analyze env with
  | ok found =>
    rw [hanalyze] at hsame
    exact yields_pure hsame
  | error found =>
    rw [hanalyze] at hsame
    exact yields_abort (hrebuild _ hsame)

/-- Analysis of a call with these arguments records something in its parts and changes
    nothing else. -/
theorem Typing.checkCall_keeps (env : Env) (span : Span) (callee : Reference) (args : List Expr)
    {checkArgs : Check (List Expr) (List (Expr × Ty))}
    (hargs : checkArgs.Yields (fun found => Expr.eraseAll (found.map (·.1)) = Expr.eraseAll args)
      fun args' => Expr.eraseAll args' = Expr.eraseAll args) :
    (checkCall env span callee args checkArgs).Yields
      (fun found => found.1.erase = callee.erase ∧ Expr.eraseAll found.2.1 = Expr.eraseAll args)
      fun found => found.1.erase = callee.erase ∧ Expr.eraseAll found.2 = Expr.eraseAll args := by
  refine (callee.check_keeps env _ fun callee' h => ⟨h, rfl⟩).bind fun ⟨callee', _⟩ hcallee => ?_
  refine hargs.bindWithin (fun args' h => ⟨hcallee, h⟩) fun args' hargs => ?_
  exact yields_concluded fun _ _ => ⟨hcallee, hargs⟩

namespace Expr

mutual

/-- Analysis records something in an expression and changes nothing else. -/
theorem analyze_keeps (env : Env) : (expr : Expr) →
    (analyze env expr).Yields (fun found => found.1.erase = expr.erase) (·.erase = expr.erase)
  | int .. | bool .. | null .. => yields_pure rfl
  | unary annot op operand => by
    refine (analyze_keeps env operand).bindWithin ?_ fun operand' hoperand => ?_
    · intro operand' hoperand
      simp [erase, hoperand]
    refine yields_concluded fun _ _ => ?_
    simp [erase, Annot.erase, hoperand]
  | binary annot op left right => by
    refine (analyze_keeps env left).bindWithin ?_ fun left' hleft => ?_
    · intro left' hleft
      simp [erase, hleft]
    refine (analyze_keeps env right).bindWithin ?_ fun right' hright => ?_
    · intro right' hright
      simp [erase, hleft, hright]
    refine yields_concluded fun _ _ => ?_
    simp [erase, Annot.erase, hleft, hright]
  | ternary annot cond onTrue onFalse => by
    refine (analyze_keeps env cond).bindWithin ?_ fun cond' hcond => ?_
    · intro cond' hcond
      simp [erase, hcond]
    refine yields_report.bind fun _ _ => ?_
    refine (analyze_keeps env onTrue).bindWithin ?_ fun onTrue' hTrue => ?_
    · intro onTrue' hTrue
      simp [erase, hcond, hTrue]
    refine (analyze_keeps env onFalse).bindWithin ?_ fun onFalse' hFalse => ?_
    · intro onFalse' hFalse
      simp [erase, hcond, hTrue, hFalse]
    refine yields_concluded fun _ _ => ?_
    simp [erase, Annot.erase, hcond, hTrue, hFalse]
  | ref annot target => by
    refine (target.check_keeps env _ ?_).bind fun target' htarget => ?_
    · intro target' htarget
      simp [erase, htarget]
    refine yields_concluded fun _ _ => ?_
    simp [erase, Annot.erase, htarget]
  | index annot target subscript => by
    refine (target.check_keeps env _ ?_).bind fun target' htarget => ?_
    · intro target' htarget
      simp [erase, htarget]
    refine (analyze_keeps env subscript).bindWithin ?_ fun subscript' hsubscript => ?_
    · intro subscript' hsubscript
      simp [erase, htarget, hsubscript]
    refine yields_conclude.bind fun _ _ => ?_
    refine yields_reported ?_
    simp [erase, Annot.erase, htarget, hsubscript]
  | call annot callee args => by
    have hcall := Typing.checkCall_keeps env annot.span callee args (analyzeAll_keeps env args)
    refine hcall.bindWithin ?_ fun ⟨callee', args', ty⟩ ⟨hcallee, hargs⟩ => yields_pure ?_
    · rintro ⟨callee', args'⟩ ⟨hcallee, hargs⟩
      simp [erase, hcallee, hargs]
    · simp [erase, Annot.erase, hcallee, hargs]
  | newObject annot cls => by
    unfold analyze
    split
    next => exact yields_abort rfl
    next => exact yields_pure rfl
  | newArray annot elem size => by
    refine (yields_orAbort (L := fun node => erase node = erase (newArray annot elem size)) rfl).bind
      fun elemTy _ => ?_
    refine (analyze_keeps env size).bindWithin ?_ fun size' hsize => ?_
    · intro size' hsize
      simp [erase, hsize]
    refine yields_reported ?_
    simp [erase, Annot.erase, hsize]

/-- The arguments of a call are kept one by one. -/
theorem analyzeAll_keeps (env : Env) : (args : List Expr) →
    (analyzeAll env args).Yields (fun found => eraseAll (found.map (·.1)) = eraseAll args)
      fun args' => eraseAll args' = eraseAll args
  | [] => yields_pure rfl
  | arg :: rest => by
    refine (analyze_keeps env arg).bindWithin ?_ fun arg' harg => ?_
    · intro arg' harg
      simp [eraseAll, harg]
    refine (analyzeAll_keeps env rest).bindWithin ?_ fun rest' hrest => yields_pure ?_
    · intro rest' hrest
      simp [eraseAll, harg, hrest]
    · simp [eraseAll, harg, hrest]

end

end Expr

open Walk

namespace Walk

variable {μ ν α β : Type}

/-- Whatever the names and declarations are, a result has the first property, and the node that
    is left when the analysis ends early has the second. -/
def Always (part : Walk ν α) (Q : α → Prop) (L : ν → Prop) : Prop :=
  part.Yields (fun _ => True) (fun a _ => Q a) L

variable {part : Walk ν α} {Q : α → Prop} {R : β → Prop} {L : ν → Prop}

theorem always_pure {a : α} (h : Q a) : Always (pure a : Walk ν α) Q L := yields_pure fun _ _ => h

theorem always_get : Always (get : Walk ν Bindings) (fun _ => True) L :=
  fun _ _ => Check.yields_pure trivial

theorem always_set {b : Bindings} : Always (set b : Walk ν PUnit) (fun _ => True) L :=
  yields_set trivial

theorem always_onScope {f : Scope → Scope} : Always (onScope f : Walk ν Unit) (fun _ => True) L :=
  yields_onScope fun _ _ => trivial

theorem always_report {found : List Diagnostic} :
    Always (report found : Walk ν Unit) (fun _ => True) L :=
  yields_report

theorem always_lift {part : Check ν α} (h : part.Yields Q L) : Always (liftM part : Walk ν α) Q L :=
  fun _ _ => h.bind fun _ ha => Check.yields_pure ha

theorem Always.bind {f : α → Walk ν β} (hpart : part.Always Q L)
    (hf : ∀ a, Q a → (f a).Always R L) : Always (part >>= f) R L :=
  Yields.bind hpart fun a before ha => hf a ha before trivial

/-- A part is analysed, and what becomes of it is put into the node around it. -/
theorem Always.bindWithin {part : Walk μ α} {M : μ → Prop} {rebuild : μ → ν} {f : α → Walk ν β}
    (hpart : part.Always Q M) (hnode : ∀ node, M node → L (rebuild node))
    (hf : ∀ a, Q a → (f a).Always R L) : Always (within rebuild part >>= f) R L := by
  have hnode' : part.Always Q fun node => L (rebuild node) :=
    fun before htrue => (hpart before htrue).weaken (fun _ => id) hnode
  exact Always.bind (Yields.within hnode') hf

/-- Analysis of a node that records something in it and changes nothing else, as `erase`
    shows. -/
def Keeps (erase : ν → ν) (node : ν) (part : Walk ν ν) : Prop :=
  part.Yields (fun _ => True) (fun node' _ => erase node' = erase node) (erase · = erase node)

/-- Analysis that keeps every node keeps a list of them. -/
theorem keeps_each {erase : ν → ν} {walk : ν → Walk ν ν} (h : ∀ node, (walk node).Keeps erase node) :
    (nodes : List ν) → (each walk nodes).Keeps (List.map erase) nodes
  | [] => always_pure rfl
  | node :: rest => by
    refine Always.bindWithin (h node) ?_ fun node' hnode => ?_
    · intro node' hnode
      simp [hnode]
    refine Always.bindWithin (keeps_each h rest) ?_ fun rest' hrest => always_pure ?_
    · intro rest' hrest
      simp [hnode, hrest]
    · simp [hnode, hrest]

end Walk

theorem Expr.checkCondition_keeps (construct : String) (cond : Expr) (env : Env) :
    (cond.checkCondition construct env).Yields (·.erase = cond.erase) (·.erase = cond.erase) := by
  refine (cond.analyze_keeps env).bind fun _ hcond => ?_
  exact yields_reported hcond

namespace Stmt

theorem always_inEnv {ν : Type} {method : MethodContext} {part : Env → Check ν ν} {L : ν → Prop}
    (h : ∀ env, (part env).Yields L L) : (inEnv method part).Always L L := by
  refine always_get.bind fun _ _ => ?_
  exact always_lift (h _)

/-- A branch is kept as the statement that it is. -/
theorem analyzeBranch_keeps {stmt : Stmt} {analysis : Walk Stmt Stmt}
    (h : analysis.Keeps erase stmt) : (analyzeBranch stmt analysis).Keeps erase stmt := by
  refine always_report.bind fun _ _ => ?_
  refine always_onScope.bind fun _ _ => ?_
  refine Always.bind h fun stmt' hstmt => ?_
  refine always_onScope.bind fun _ _ => ?_
  exact always_pure hstmt

/-- A declaration is kept, also when its type or its name cuts the analysis short. -/
theorem analyzeVarDecl_keeps (method : MethodContext) (span : Span) (var : LocalDef) (init : Expr) :
    (analyzeVarDecl method span var init).Keeps erase (varDecl span var init) := by
  have habort : ∀ {α : Type} {result : Except Diagnostic α},
      (Check.orAbort (varDecl span var init) result).Yields (fun a => result = .ok a)
        (·.erase = (varDecl span var init).erase) := Check.yields_orAbort rfl
  refine always_get.bind fun b _ => ?_
  refine (always_lift habort).bind fun ty _ => ?_
  refine (always_lift habort).bind fun scope _ => ?_
  refine always_set.bind fun _ _ => ?_
  have hinit := fun env => init.analyze_keeps env
  refine (always_lift (Check.Yields.within ((hinit _).weaken (fun _ => id) ?_))).bind
    fun ⟨init', initTy⟩ hinit => ?_
  · intro init' hinit
    simp [erase, LocalDef.erase, hinit]
  refine always_report.bind fun _ _ => always_pure ?_
  simp [erase, LocalDef.erase, hinit]

/-- An assignment is kept. -/
theorem analyzeAssign_keeps (span : Span) (target : Reference) (value : Expr) (env : Env) :
    (analyzeAssign span target value env).Yields (·.erase = (assign span target value).erase)
      (·.erase = (assign span target value).erase) := by
  refine (target.check_keeps env _ ?_).bind fun ⟨target', _⟩ htarget => ?_
  · intro target' htarget
    simp [erase, htarget]
  refine (value.analyze_keeps env).bindWithin ?_ fun value' hvalue => ?_
  · intro value' hvalue
    simp [erase, htarget, hvalue]
  refine yields_reported ?_
  simp [erase, htarget, hvalue]

/-- An assignment to an element is kept, wherever its analysis is cut short. -/
theorem analyzeIndexAssign_keeps (span : Span) (target : Reference) (subscript value : Expr)
    (env : Env) : (analyzeIndexAssign span target subscript value env).Yields
      (·.erase = (indexAssign span target subscript value).erase)
      (·.erase = (indexAssign span target subscript value).erase) := by
  refine (target.check_keeps env _ ?_).bind fun ⟨target', _⟩ htarget => ?_
  · intro target' htarget
    simp [erase, htarget]
  refine (subscript.analyze_keeps env).bindWithin ?_ fun subscript' hsubscript => ?_
  · intro subscript' hsubscript
    simp [erase, htarget, hsubscript]
  refine (value.analyze_keeps env).bindWithin ?_ fun value' hvalue => ?_
  · intro value' hvalue
    simp [erase, htarget, hsubscript, hvalue]
  refine Check.yields_conclude.bind fun _ _ => ?_
  refine Check.yields_report.bind fun _ _ => ?_
  refine yields_reported ?_
  simp [erase, htarget, hsubscript, hvalue]

theorem analyzeCall_keeps (span : Span) (callee : Reference) (args : List Expr) (env : Env) :
    (analyzeCall span callee args env).Yields (·.erase = (call span callee args).erase)
      (·.erase = (call span callee args).erase) := by
  have hcall := Typing.checkCall_keeps env span callee args (Expr.analyzeAll_keeps env args)
  refine hcall.bindWithin ?_ fun ⟨callee', args', _⟩ ⟨hcallee, hargs⟩ => Check.yields_pure ?_
  · rintro ⟨callee', args'⟩ ⟨hcallee, hargs⟩
    simp [erase, hcallee, hargs]
  · simp [erase, hcallee, hargs]

/-- A return is kept with its value, if it has one. -/
theorem analyzeReturn_keeps (span : Span) (value : Option Expr) (env : Env) :
    (analyzeReturn span value env).Yields (·.erase = (Stmt.return span value).erase)
      (·.erase = (Stmt.return span value).erase) := by
  unfold analyzeReturn
  cases value with
  | none => exact yields_reported rfl
  | some value =>
    refine (value.analyze_keeps env).bindWithin ?_ fun value' hvalue => ?_
    · intro value' hvalue
      simp [erase, hvalue]
    refine yields_reported ?_
    simp [erase, hvalue]

mutual

/-- Analysis records something in a statement and changes nothing else. -/
theorem analyze_keeps (method : MethodContext) : (stmt : Stmt) →
    (analyze method stmt).Keeps erase stmt
  | block span stmts => by
    unfold Walk.Keeps analyze
    refine always_onScope.bind fun _ _ => ?_
    refine Always.bindWithin (analyzeAll_keeps method stmts) ?_ fun stmts' hstmts => ?_
    · intro stmts' hstmts
      simp [erase, hstmts]
    refine always_onScope.bind fun _ _ => always_pure ?_
    simp [erase, hstmts]
  | varDecl span var init => analyzeVarDecl_keeps method span var init
  | assign span target value => always_inEnv (analyzeAssign_keeps span target value)
  | indexAssign span target subscript value =>
    always_inEnv (analyzeIndexAssign_keeps span target subscript value)
  | call span callee args => always_inEnv (analyzeCall_keeps span callee args)
  | .return span value => always_inEnv (analyzeReturn_keeps span value)
  | ifElse span cond onTrue onFalse => by
    unfold Walk.Keeps analyze
    refine (always_inEnv (cond.checkCondition_keeps "if")).bindWithin ?_ fun cond' hcond => ?_
    · intro cond' hcond
      simp [erase, hcond]
    have hTrue := analyze_keeps method onTrue
    refine Always.bindWithin (analyzeBranch_keeps hTrue) ?_ fun onTrue' hTrue => ?_
    · intro onTrue' hTrue
      simp [erase, hcond, hTrue]
    cases onFalse with
    | none =>
      refine always_pure ?_
      simp [erase, eraseOption, hcond, hTrue]
    | some onFalse =>
      have hFalse := analyze_keeps method onFalse
      refine Always.bindWithin (analyzeBranch_keeps hFalse) ?_ fun onFalse' hFalse => always_pure ?_
      · intro onFalse' hFalse
        simp [erase, eraseOption, hcond, hTrue, hFalse]
      · simp [erase, eraseOption, hcond, hTrue, hFalse]
  | .while span cond body => by
    unfold Walk.Keeps analyze
    refine (always_inEnv (cond.checkCondition_keeps "while")).bindWithin ?_ fun cond' hcond => ?_
    · intro cond' hcond
      simp [erase, hcond]
    have hbody := analyze_keeps method body
    refine Always.bindWithin (analyzeBranch_keeps hbody) ?_ fun body' hbody => always_pure ?_
    · intro body' hbody
      simp [erase, hcond, hbody]
    · simp [erase, hcond, hbody]
  | .for span init cond update body => by
    unfold Walk.Keeps analyze
    refine always_onScope.bind fun _ _ => ?_
    refine Always.bindWithin (analyzeOption_keeps method init) ?_ fun init' hinit => ?_
    · intro init' hinit
      simp [erase, hinit]
    have hcond : Always (match cond with
        | none => pure none
        | some cond => some <$> Walk.within some (inEnv method (cond.checkCondition "for")) :
          Walk (Option Expr) (Option Expr))
        (·.map Expr.erase = cond.map Expr.erase) (·.map Expr.erase = cond.map Expr.erase) := by
      cases cond with
      | none => exact always_pure rfl
      | some cond =>
        dsimp only
        rw [map_eq_pure_bind]
        refine (always_inEnv (cond.checkCondition_keeps "for")).bindWithin ?_ fun cond' hcond => ?_
        · intro cond' hcond
          simp [hcond]
        refine always_pure ?_
        simp [hcond]
    refine hcond.bindWithin ?_ fun cond' hcond => ?_
    · intro cond' hcond
      simp [erase, hinit, hcond]
    refine Always.bindWithin (analyzeOption_keeps method update) ?_ fun update' hupdate => ?_
    · intro update' hupdate
      simp [erase, hinit, hcond, hupdate]
    have hbody := analyze_keeps method body
    refine Always.bindWithin (analyzeBranch_keeps hbody) ?_ fun body' hbody => ?_
    · intro body' hbody
      simp [erase, hinit, hcond, hupdate, hbody]
    refine always_onScope.bind fun _ _ => always_pure ?_
    simp [erase, hinit, hcond, hupdate, hbody]

theorem analyzeOption_keeps (method : MethodContext) : (stmt : Option Stmt) →
    (analyzeOption method stmt).Keeps eraseOption stmt
  | none => always_pure rfl
  | some stmt => by
    unfold Walk.Keeps analyzeOption
    rw [map_eq_pure_bind]
    refine Always.bindWithin (analyze_keeps method stmt) ?_ fun stmt' hstmt => always_pure ?_
    · intro stmt' hstmt
      simp [eraseOption, hstmt]
    · simp [eraseOption, hstmt]

/-- The statements of a block are kept one by one. -/
theorem analyzeAll_keeps (method : MethodContext) : (stmts : List Stmt) →
    (analyzeAll method stmts).Keeps eraseAll stmts
  | [] => always_pure rfl
  | stmt :: rest => by
    refine Always.bindWithin (analyze_keeps method stmt) ?_ fun stmt' hstmt => ?_
    · intro stmt' hstmt
      simp [eraseAll, hstmt]
    refine Always.bindWithin (analyzeAll_keeps method rest) ?_ fun rest' hrest => always_pure ?_
    · intro rest' hrest
      simp [eraseAll, hstmt, hrest]
    · simp [eraseAll, hstmt, hrest]

end

end Stmt

section Declarations

variable {ν : Type}

/-- If a declaration is cut short, its node is left as it was. -/
theorem Walk.declareTyped_keeps (erase : ν → ν) (node : ν) (type : TypeExpr)
    (declare : SymbolTable → Ty → Except Diagnostic SymbolTable) :
    (declareTyped node type declare).Always (fun _ => True) (erase · = erase node) := by
  have habort : ∀ {α : Type} {result : Except Diagnostic α},
      (Check.orAbort node result).Yields (fun a => result = .ok a) (erase · = erase node) :=
    Check.yields_orAbort rfl
  refine always_get.bind fun _ _ => ?_
  refine (always_lift habort).bind fun _ _ => ?_
  refine (always_lift habort).bind fun _ _ => ?_
  refine always_set.bind fun _ _ => ?_
  exact always_pure trivial

theorem FieldDef.declare_keeps (cls : SymbolId) (className : String) (field : FieldDef) :
    (field.declare cls className).Keeps FieldDef.erase field := by
  refine (declareTyped_keeps FieldDef.erase _ _ _).bind fun _ _ => ?_
  exact always_pure rfl

theorem ParamDef.declare_keeps (param : ParamDef) : param.declare.Keeps ParamDef.erase param := by
  refine (declareTyped_keeps ParamDef.erase _ _ _).bind fun _ _ => ?_
  exact always_pure rfl

theorem MethodDef.declare_keeps (cls : SymbolId) (className : String) (method : MethodDef) :
    (method.declare cls className).Keeps MethodDef.erase method := by
  refine (declareTyped_keeps MethodDef.erase _ _ _).bind fun symbol _ => ?_
  refine Always.bindWithin (keeps_each ParamDef.declare_keeps method.params) ?_ fun params hparams => ?_
  · intro params hparams
    simp [erase, hparams]
  refine Always.bind (Q := fun _ => True) (yields_modify fun _ _ => trivial) fun _ _ => always_pure ?_
  simp [erase, hparams]

theorem ClassDef.declare_keeps (cls : ClassDef) : cls.declare.Keeps ClassDef.erase cls := by
  refine always_get.bind fun b _ => ?_
  dsimp only
  split
  next => exact always_lift (Check.yields_abort rfl)
  next =>
    refine always_set.bind fun _ _ => ?_
    exact always_pure rfl

/-- Declaring the members of a class records their symbols and changes nothing else. -/
theorem ClassDef.declareMembers_keeps (cls : ClassDef) :
    cls.declareMembers.Keeps ClassDef.erase cls := by
  unfold declareMembers
  cases cls.binding with
  | none => exact always_pure rfl
  | some symbol =>
    have hfields := keeps_each (FieldDef.declare_keeps symbol cls.name) cls.fields
    have hmethods := keeps_each (MethodDef.declare_keeps symbol cls.name) cls.methods
    refine Always.bindWithin hfields ?_ fun fields hfields => ?_
    · intro fields hfields
      simp [erase, hfields]
    refine Always.bindWithin hmethods ?_ fun methods hmethods => always_pure ?_
    · intro methods hmethods
      simp [erase, hfields, hmethods]
    · simp [erase, hfields, hmethods]

/-- Bringing a parameter into force leaves it as it is. -/
theorem ParamDef.enter_keeps (param : ParamDef) : param.enter.Keeps ParamDef.erase param := by
  refine always_get.bind fun b _ => ?_
  cases param.binding with
  | none => exact always_pure rfl
  | some symbol =>
    have habort : (Check.orAbort param (b.scope.declareLocal param.name symbol param.span)).Yields
        (fun _ => True) (ParamDef.erase · = param.erase) :=
      (Check.yields_orAbort (L := fun node => node = param) rfl).weaken (fun _ _ => trivial)
        fun _ => congrArg ParamDef.erase
    refine (always_lift habort).bind fun _ _ => ?_
    refine always_set.bind fun _ _ => ?_
    exact always_pure rfl

/-- Analysis of a method records something in its parameters and its body only. -/
theorem MethodDef.analyze_keeps (cls : SymbolId) (method : MethodDef) :
    (method.analyze cls).Keeps MethodDef.erase method := by
  unfold analyze
  cases method.binding with
  | none => exact always_pure rfl
  | some symbol =>
    refine always_onScope.bind fun _ _ => ?_
    refine Always.bindWithin (keeps_each ParamDef.enter_keeps method.params) ?_ fun params hparams => ?_
    · intro params hparams
      simp [erase, hparams]
    refine always_get.bind fun _ _ => ?_
    refine Always.bindWithin (Stmt.analyzeAll_keeps _ method.body) ?_ fun body hbody => ?_
    · intro body hbody
      simp [erase, hparams, hbody]
    refine always_report.bind fun _ _ => always_pure ?_
    simp [erase, hparams, hbody]

/-- Analysis of a class records something in its methods only. -/
theorem ClassDef.analyze_keeps (cls : ClassDef) : cls.analyze.Keeps ClassDef.erase cls := by
  unfold analyze
  cases cls.binding with
  | none => exact always_pure rfl
  | some symbol =>
    have hmethods := keeps_each (MethodDef.analyze_keeps symbol) cls.methods
    refine always_get.bind fun b _ => ?_
    refine always_onScope.bind fun _ _ => ?_
    refine Always.bindWithin hmethods ?_ fun methods hmethods => always_pure ?_
    · intro methods hmethods
      simp [erase, hmethods]
    · simp [erase, hmethods]

end Declarations

/-- The three rounds over the classes keep them, each on the result of the one before. -/
theorem ClassDef.analyzeAll_keeps (classes : List ClassDef) :
    (analyzeAll classes).Keeps (List.map ClassDef.erase) classes := by
  refine Always.bind (keeps_each ClassDef.declare_keeps classes) fun named hnamed => ?_
  have hdeclared := keeps_each ClassDef.declareMembers_keeps named
  unfold Walk.Keeps at hdeclared
  rw [hnamed] at hdeclared
  refine Always.bind hdeclared fun declared hdeclared => ?_
  have hanalyzed := keeps_each ClassDef.analyze_keeps declared
  unfold Walk.Keeps at hanalyzed
  rw [hdeclared] at hanalyzed
  exact hanalyzed

/-- Analysis of a package records something in the tree and changes nothing else, also when
    it is cut short. -/
theorem Package.erase_analyze (package : Package) : package.analyze.package.erase = package.erase := by
  have hkeeps := ClassDef.analyzeAll_keeps package.classes .initial trivial
  unfold analyze
  cases hrun : (ClassDef.analyzeAll package.classes).run .initial |>.run [] with
  | ok result log =>
    have hclasses := hkeeps.ok hrun
    simp [erase, hclasses]
  | error classes log =>
    have hclasses := hkeeps.error hrun
    simp [erase, hclasses]

end SmallJava
