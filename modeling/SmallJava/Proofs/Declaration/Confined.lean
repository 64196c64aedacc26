import SmallJava.Proofs.Declaration.Accepted
import SmallJava.Proofs.Scoping.Program
import SmallJava.Syntax.Build

namespace SmallJava

/-- Having a type of which there are values, as analysis records it. -/
def Expr.isValue (expr : Expr) : Bool := expr.annot.ty.any fun ty => !ty.isVoid

namespace Expr

mutual

/-- Whether every part of the expression whose value is used has one, and no array is made of
    elements without values. -/
def confinesVoid : Expr → Bool
  | unary _ _ operand => operand.isValue && confinesVoid operand
  | binary _ _ left right =>
    left.isValue && confinesVoid left && right.isValue && confinesVoid right
  | ternary _ cond onTrue onFalse =>
    cond.isValue && confinesVoid cond && onTrue.isValue && confinesVoid onTrue &&
      onFalse.isValue && confinesVoid onFalse
  | index _ _ subscript => subscript.isValue && confinesVoid subscript
  | call _ _ args => allConfineVoid args
  | newArray annot _ size => annot.ty.any Ty.avoidsVoid && size.isValue && confinesVoid size
  | _ => true

def allConfineVoid : List Expr → Bool
  | [] => true
  | expr :: rest => expr.isValue && confinesVoid expr && allConfineVoid rest

end

end Expr

namespace Stmt

mutual

/-- Whether every expression in the statement whose value is used has one. -/
def confinesVoid : Stmt → Bool
  | block _ stmts => allConfineVoid stmts
  | varDecl _ _ init => init.isValue && init.confinesVoid
  | assign _ _ value => value.isValue && value.confinesVoid
  | indexAssign _ _ subscript value =>
    subscript.isValue && subscript.confinesVoid && value.isValue && value.confinesVoid
  | call _ _ args => Expr.allConfineVoid args
  | .return _ value => value.all fun expr => expr.isValue && expr.confinesVoid
  | ifElse _ cond onTrue onFalse =>
    cond.isValue && cond.confinesVoid && confinesVoid onTrue && optionConfinesVoid onFalse
  | .while _ cond body => cond.isValue && cond.confinesVoid && confinesVoid body
  | .for _ init cond update body =>
    optionConfinesVoid init && cond.all (fun expr => expr.isValue && expr.confinesVoid) &&
      optionConfinesVoid update && confinesVoid body

def optionConfinesVoid : Option Stmt → Bool
  | none => true
  | some stmt => confinesVoid stmt

def allConfineVoid : List Stmt → Bool
  | [] => true
  | stmt :: rest => confinesVoid stmt && allConfineVoid rest

end

end Stmt

/-- Only methods have the type `void`, nothing has a type that contains it, and no expression
    without a value stands where one is needed. -/
structure Package.ConfinesVoid (package : Package) (table : SymbolTable) : Prop where
  symbols : ∀ x kind, table.kind? x = some kind → kind.isMethod = false →
    (table.typeOf x).avoidsVoid = true
  results : ∀ m, table.isMethod m = true →
    (table.typeOf m).isVoid = true ∨ (table.typeOf m).avoidsVoid = true
  bodies : ∀ method ∈ package.methods, Stmt.allConfineVoid method.body = true

section Typed

variable {Γ : Context} {vars : List SymbolId}

theorem Expr.HasType.annot_ty {expr : Expr} {τ : Ty} (h : expr.HasType Γ vars τ) :
    expr.annot.ty = some τ := by
  cases h <;> assumption

/-- The annotation of an expression says whether it has a value. -/
theorem Expr.HasValue.isValue {expr : Expr} (h : expr.HasValue Γ vars) : expr.isValue = true := by
  obtain ⟨τ, htyped, hvoid⟩ := h
  unfold Expr.isValue
  rw [htyped.annot_ty]
  simpa [← Ty.isVoid_iff] using hvoid

theorem Expr.ArgsFit.hasValue {arg : Expr} {args : List Expr} {p : SymbolId} {params : List SymbolId}
    (h : Expr.ArgsFit Γ vars (arg :: args) (p :: params)) (hp : (Γ.sig.typeOf p).avoidsVoid = true) :
    arg.HasValue Γ vars ∧ Expr.ArgsFit Γ vars args params := by
  cases h with
  | cons harg hfits hargs => exact ⟨⟨_, harg, hfits.ne_void hp⟩, hargs⟩

namespace Expr

mutual

/-- In an expression with a value, all parts whose values are used have one. -/
theorem HasValue.confinesVoid (hvoid : Γ.sig.VoidFree) : (expr : Expr) → expr.HasValue Γ vars →
    expr.avoidsVoid = true → expr.confinesVoid = true
  | .int .., _, _ | .bool .., _, _ | .null _, _, _ | .ref .., _, _ | .newObject .., _, _ => rfl
  | .unary annot op operand, h, havoids => by
    simp [Expr.confinesVoid, h.unary.isValue, HasValue.confinesVoid hvoid operand h.unary havoids]
  | .binary annot op left right, h, havoids => by
    obtain ⟨havoids, havoids'⟩ := Bool.and_eq_true_iff.1 havoids
    simp [Expr.confinesVoid, h.binary.1.isValue, h.binary.2.isValue,
      HasValue.confinesVoid hvoid left h.binary.1 havoids,
      HasValue.confinesVoid hvoid right h.binary.2 havoids']
  | .ternary annot cond onTrue onFalse, h, havoids => by
    obtain ⟨hcond, hTrue, hFalse⟩ := h.ternary
    simp only [Expr.avoidsVoid, Bool.and_eq_true] at havoids
    simp [Expr.confinesVoid, hcond.isValue, hTrue.isValue, hFalse.isValue,
      HasValue.confinesVoid hvoid cond hcond havoids.1.1,
      HasValue.confinesVoid hvoid onTrue hTrue havoids.1.2,
      HasValue.confinesVoid hvoid onFalse hFalse havoids.2]
  | .index annot target subscript, h, havoids => by
    simp [Expr.confinesVoid, h.index.2.isValue,
      HasValue.confinesVoid hvoid subscript h.index.2 havoids]
  | .call annot callee args, h, havoids => by
    obtain ⟨m, -, hargs, -⟩ := h.call
    exact ArgsFit.confinesVoid hvoid args _ hargs (hvoid.params m) havoids
  | .newArray annot elem size, h, havoids => by
    obtain ⟨helem, hsize⟩ := Bool.and_eq_true_iff.1 havoids
    obtain ⟨τ, htyped, -⟩ := id h
    cases htyped with
    | newArray hdenotes _ hty =>
      have hannot : annot.ty.any Ty.avoidsVoid = true := by
        rw [hty]
        exact hdenotes.avoidsVoid.trans helem
      simp [Expr.confinesVoid, hannot, h.newArray.isValue,
        HasValue.confinesVoid hvoid size h.newArray hsize]

/-- Arguments that fit parameters without void hold no void value. -/
theorem ArgsFit.confinesVoid (hvoid : Γ.sig.VoidFree) : (args : List Expr) →
    (params : List SymbolId) → ArgsFit Γ vars args params →
      (∀ p ∈ params, (Γ.sig.typeOf p).avoidsVoid = true) → allAvoidVoid args = true →
        allConfineVoid args = true
  | [], _, _, _, _ => rfl
  | arg :: rest, [], h, _, _ => by cases h
  | arg :: rest, p :: params, h, hparams, havoids => by
    obtain ⟨havoids, havoids'⟩ := Bool.and_eq_true_iff.1 havoids
    obtain ⟨harg, hrest⟩ := h.hasValue (hparams p List.mem_cons_self)
    simp [allConfineVoid, harg.isValue, HasValue.confinesVoid hvoid arg harg havoids,
      ArgsFit.confinesVoid hvoid rest params hrest
        (fun other hmem => hparams other (List.mem_cons_of_mem _ hmem)) havoids']

end

/-- An expression whose value is used has one, and so do its parts. -/
theorem HasType.confines (hvoid : Γ.sig.VoidFree) {expr : Expr} {τ : Ty}
    (h : expr.HasType Γ vars τ) (hτ : τ ≠ .void) (havoids : expr.avoidsVoid = true) :
    (expr.isValue && expr.confinesVoid) = true := by
  have hvalue : expr.HasValue Γ vars := ⟨τ, h, hτ⟩
  rw [hvalue.isValue, hvalue.confinesVoid hvoid expr havoids]
  rfl

end Expr

namespace Stmt

variable {locals : List SymbolId}

mutual

/-- In a well-typed statement, every expression whose value is used has one. -/
theorem WellTyped.confinesVoid (hvoid : Γ.sig.VoidFree) : (stmt : Stmt) → (locals : List SymbolId) →
    stmt.WellTyped Γ locals → stmt.avoidsVoid = true → stmt.confinesVoid = true
  | .block span stmts, locals, h, havoids => by
    cases h with
    | block hstmts => exact ListWellTyped.confinesVoid hvoid stmts locals hstmts havoids
  | .varDecl span var init, locals, h, havoids => by
    cases h with
    | varDecl _ hkind _ hinit hfits =>
      exact hinit.confines hvoid (hfits.ne_void (hvoid.symbols _ _ hkind rfl))
        (Bool.and_eq_true_iff.1 havoids).2
  | .assign span target value, locals, h, havoids => by
    cases h with
    | assign htarget _ hvalue hfits =>
      exact hvalue.confines hvoid (hfits.ne_void (htarget.avoidsVoid hvoid)) havoids
  | .indexAssign span target subscript value, locals, h, havoids => by
    cases h with
    | indexAssign htarget hsubscript hvalue hfits =>
      obtain ⟨havoids, havoids'⟩ := Bool.and_eq_true_iff.1 havoids
      have hfirst := hsubscript.confines hvoid nofun havoids
      have harray := htarget.avoidsVoid hvoid
      have hsecond := hvalue.confines hvoid (hfits.ne_void harray) havoids'
      simp only [Bool.and_eq_true] at hfirst hsecond
      simp [Stmt.confinesVoid, hfirst, hsecond]
  | .call span callee args, locals, h, havoids => by
    cases h with
    | @call _ _ _ _ m _ hargs =>
      exact Expr.ArgsFit.confinesVoid hvoid args _ hargs (hvoid.params m) havoids
  | .return span none, locals, h, havoids => rfl
  | .return span (some value), locals, h, havoids => by
    cases h with
    | returnValue hreturns hvalue hfits =>
      exact hvalue.confines hvoid (hfits.ne_void_of_ne hreturns) havoids
  | .ifElse span cond onTrue onFalse, locals, h, havoids => by
    cases h with
    | ifElse hcond hTrue hFalse =>
      simp only [Stmt.avoidsVoid, Bool.and_eq_true] at havoids
      have hfirst := hcond.confines hvoid nofun havoids.1.1
      simp only [Bool.and_eq_true] at hfirst
      simp [Stmt.confinesVoid, hfirst, WellTyped.confinesVoid hvoid onTrue locals hTrue.typed havoids.1.2,
        optionConfinesVoid_of_typed hvoid onFalse locals (fun stmt hmem => (hFalse stmt hmem).typed)
          havoids.2]
  | .while span cond body, locals, h, havoids => by
    cases h with
    | «while» hcond hbody =>
      obtain ⟨havoids, havoids'⟩ := Bool.and_eq_true_iff.1 havoids
      have hfirst := hcond.confines hvoid nofun havoids
      simp only [Bool.and_eq_true] at hfirst
      simp [Stmt.confinesVoid, hfirst, WellTyped.confinesVoid hvoid body locals hbody.typed havoids']
  | .for span init cond update body, locals, h, havoids => by
    cases h with
    | «for» hinit hcond hupdate hbody =>
      simp only [Stmt.avoidsVoid, Bool.and_eq_true] at havoids
      obtain ⟨⟨⟨hinit', hcond'⟩, hupdate'⟩, hbody'⟩ := havoids
      have hsecond : cond.all (fun expr => expr.isValue && expr.confinesVoid) = true := by
        cases cond with
        | none => rfl
        | some cond => exact (hcond cond rfl).confines hvoid nofun hcond'
      simp [Stmt.confinesVoid, hsecond, optionConfinesVoid_of_typed hvoid init locals hinit hinit',
        optionConfinesVoid_of_typed hvoid update _ hupdate hupdate',
        WellTyped.confinesVoid hvoid body _ hbody.typed hbody']

theorem optionConfinesVoid_of_typed (hvoid : Γ.sig.VoidFree) : (stmt : Option Stmt) →
    (locals : List SymbolId) → (∀ s ∈ stmt, s.WellTyped Γ locals) →
      optionAvoidsVoid stmt = true → optionConfinesVoid stmt = true
  | none, _, _, _ => rfl
  | some stmt, locals, h, havoids => WellTyped.confinesVoid hvoid stmt locals (h stmt rfl) havoids

/-- Void stays confined in a well-typed list of statements whose written types avoid it. -/
theorem ListWellTyped.confinesVoid (hvoid : Γ.sig.VoidFree) : (stmts : List Stmt) →
    (locals : List SymbolId) → ListWellTyped Γ locals stmts → allAvoidVoid stmts = true →
      allConfineVoid stmts = true
  | [], _, _, _ => rfl
  | stmt :: rest, locals, h, havoids => by
    cases h with
    | cons hstmt hrest =>
      obtain ⟨havoids, havoids'⟩ := Bool.and_eq_true_iff.1 havoids
      simp [allConfineVoid, WellTyped.confinesVoid hvoid stmt locals hstmt havoids,
        ListWellTyped.confinesVoid hvoid rest _ hrest havoids']

end

end Stmt

end Typed

namespace Expr

mutual

/-- Whether an expression writes void anywhere does not depend on its annotations. -/
theorem avoidsVoid_erase : (expr : Expr) → expr.erase.avoidsVoid = expr.avoidsVoid
  | .int .. | .bool .. | .null _ | .ref .. | .newObject .. => rfl
  | .unary _ _ operand => avoidsVoid_erase operand
  | .binary _ _ left right => by
    simp [erase, avoidsVoid, avoidsVoid_erase left, avoidsVoid_erase right]
  | .ternary _ cond onTrue onFalse => by
    simp [erase, avoidsVoid, avoidsVoid_erase cond, avoidsVoid_erase onTrue, avoidsVoid_erase onFalse]
  | .index _ _ subscript => avoidsVoid_erase subscript
  | .call _ _ args => allAvoidVoid_erase args
  | .newArray _ elem size => by simp [erase, avoidsVoid, avoidsVoid_erase size]

theorem allAvoidVoid_erase : (args : List Expr) → allAvoidVoid (eraseAll args) = allAvoidVoid args
  | [] => rfl
  | arg :: rest => by simp [eraseAll, allAvoidVoid, avoidsVoid_erase arg, allAvoidVoid_erase rest]

end

end Expr

namespace Stmt

theorem all_avoidsVoid_erase (expr : Option Expr) :
    (expr.map Expr.erase).all Expr.avoidsVoid = expr.all Expr.avoidsVoid := by
  cases expr with
  | none => rfl
  | some expr => exact expr.avoidsVoid_erase

mutual

/-- Whether a statement writes void anywhere does not depend on its annotations. -/
theorem avoidsVoid_erase : (stmt : Stmt) → stmt.erase.avoidsVoid = stmt.avoidsVoid
  | .block _ stmts => allAvoidVoid_erase stmts
  | .varDecl _ var init => by simp [erase, avoidsVoid, LocalDef.erase, init.avoidsVoid_erase]
  | .assign _ _ value => value.avoidsVoid_erase
  | .indexAssign _ _ subscript value => by
    simp [erase, avoidsVoid, subscript.avoidsVoid_erase, value.avoidsVoid_erase]
  | .call _ _ args => Expr.allAvoidVoid_erase args
  | .return _ value => all_avoidsVoid_erase value
  | .ifElse _ cond onTrue onFalse => by
    simp [erase, avoidsVoid, cond.avoidsVoid_erase, avoidsVoid_erase onTrue,
      optionAvoidsVoid_erase onFalse]
  | .while _ cond body => by
    simp [erase, avoidsVoid, cond.avoidsVoid_erase, avoidsVoid_erase body]
  | .for _ init cond update body => by
    simp [erase, avoidsVoid, optionAvoidsVoid_erase init, all_avoidsVoid_erase cond,
      optionAvoidsVoid_erase update, avoidsVoid_erase body]

theorem optionAvoidsVoid_erase : (stmt : Option Stmt) →
    optionAvoidsVoid (eraseOption stmt) = optionAvoidsVoid stmt
  | none => rfl
  | some stmt => avoidsVoid_erase stmt

theorem allAvoidVoid_erase : (stmts : List Stmt) → allAvoidVoid (eraseAll stmts) = allAvoidVoid stmts
  | [] => rfl
  | stmt :: rest => by simp [eraseAll, allAvoidVoid, avoidsVoid_erase stmt, allAvoidVoid_erase rest]

end

end Stmt

namespace Package

/-- What analysis records does not count for what is written. -/
theorem avoidsVoid_erase (package : Package) : package.erase.avoidsVoid = package.avoidsVoid := by
  have hmethod : ∀ method : MethodDef, method.erase.avoidsVoid = method.avoidsVoid := by
    intro method
    simp [MethodDef.avoidsVoid, MethodDef.erase, Stmt.allAvoidVoid_erase, Function.comp_def,
      ParamDef.erase]
  simp [avoidsVoid, erase, ClassDef.erase, FieldDef.erase, hmethod, Function.comp_def]

variable {package package' : Package} {analysis : Analysis} {log : Diagnostic.Log}

/-- A check that succeeds returns the tables and the package of the analysis. -/
theorem analyze_of_check {rejects : Policy}
    (hcheck : package.check rejects = (.ok (package', analysis), log)) :
    package.analyze.analysis? = some analysis ∧ package.analyze.package = package' := by
  unfold check at hcheck
  dsimp only at hcheck
  split at hcheck
  next => cases (Prod.mk.inj hcheck).1
  next found hfound =>
  split at hcheck
  next => cases (Prod.mk.inj hcheck).1
  next =>
  obtain ⟨rfl, rfl⟩ := Prod.mk.inj (Except.ok.inj (Prod.mk.inj hcheck).1)
  exact ⟨hfound, rfl⟩

/-- In an accepted program that writes `void` only as what methods return, nothing but a method
    has that type, and no expression without a value stands where one is needed. -/
theorem void_confined (hcheck : package.check .any = (.ok (package', analysis), log))
    (hvoid : package.avoidsVoid = true) : package'.ConfinesVoid analysis.table := by
  have htyped : package'.WellTyped true false analysis :=
    wellTyped_of_check hcheck (package.disciplined nofun fun _ => hvoid)
  obtain ⟨hanalysis, rfl⟩ := analyze_of_check hcheck
  have havoids : package.analyze.package.avoidsVoid = true := by
    rw [← avoidsVoid_erase, erase_analyze, avoidsVoid_erase, hvoid]
  have hmethods : ∀ method ∈ package.analyze.package.methods, method.avoidsVoid = true := by
    intro method hmem
    obtain ⟨cls, hcls, hmethod⟩ := List.mem_flatMap.1 hmem
    have hcls' := List.all_eq_true.1 havoids cls hcls
    exact List.all_eq_true.1 (Bool.and_eq_true_iff.1 hcls').2 method hmethod
  refine ⟨htyped.voidFree.symbols, fun m hm => ?_, fun method hmem => ?_⟩
  · obtain ⟨info, hkind⟩ := analysis.table.signature.isMethod_iff.1 hm
    obtain rfl | hmem := htyped.complete m info hkind
    · exact .inl (by rw [htyped.println.typeOf]; rfl)
    · obtain ⟨method, hmethod, hbound⟩ := List.mem_filterMap.1 hmem
      obtain ⟨cls, hcls, hin⟩ := List.mem_flatMap.1 hmethod
      obtain ⟨b, htable, -, hdescribes⟩ := analyze_describes hanalysis
      obtain ⟨c, hc⟩ := hdescribes.declared cls (List.mem_append_right _ hcls)
      obtain ⟨m', params, hm'⟩ := hc.methods method hin
      obtain rfl := Option.some.inj (hm'.bound.symm.trans hbound)
      have hwritten := hmethods method hmethod
      simp only [MethodDef.avoidsVoid, Bool.and_eq_true, Bool.or_eq_true] at hwritten
      rw [← htable]
      exact hwritten.1.1.imp (TypeExpr.isVoid_of_resolve hm'.type).trans
        (TypeExpr.avoidsVoid_of_resolve hm'.type)
  · obtain ⟨m, info, hmethod⟩ := htyped.methods method hmem
    have hwritten := hmethods method hmem
    simp only [MethodDef.avoidsVoid, Bool.and_eq_true] at hwritten
    exact Stmt.ListWellTyped.confinesVoid htyped.voidFree method.body [] hmethod.body hwritten.2

/-- A program that calls a method without a result before it uses a local variable. -/
def discarding : Package where
  classes := [{
    name := "Main"
    fields := []
    methods := [
      { modifiers := { isStatic := true }, returnType := .void {}, name := "f", params := [], body := [] },
      .main [
        .call {} (.ofPath "f") [],
        .varDecl {} { type := .int {}, name := "y" } (.int {} 5),
        .println (.ref {} (.ofPath "y"))]] }]

theorem discarding_confined : discarding.avoidsVoid = true ∧
    ∃ package' analysis log, discarding.check .any = (.ok (package', analysis), log) ∧
      package'.ConfinesVoid analysis.table := by
  have hrun : (match discarding.check .any with
      | (.ok _, _) => true
      | _ => false) = true := by
    decide +kernel
  split at hrun
  next checked log hcheck =>
    exact ⟨by decide, checked.1, checked.2, log, hcheck, void_confined hcheck (by decide)⟩
  next => cases hrun

/-- The same program with the call as the initial value of a variable of type `void`, for which
    no word is pushed. -/
def leaking : Package where
  classes := [{
    name := "Main"
    fields := []
    methods := [
      { modifiers := { isStatic := true }, returnType := .void {}, name := "f", params := [], body := [] },
      .main [
        .varDecl {} { type := .void {}, name := "x" } (.call {} (.ofPath "f") []),
        .varDecl {} { type := .int {}, name := "y" } (.int {} 5),
        .println (.ref {} (.ofPath "y"))]] }]

/-- Where local variables may be `void`, an accepted program can have one. -/
theorem leaking_not_confined : ∃ package' analysis log,
    leaking.check .any = (.ok (package', analysis), log) ∧ ¬package'.ConfinesVoid analysis.table := by
  have hrun : (match leaking.check .any with
      | (.ok (package', _), _) => package'.methods.any fun method => !Stmt.allConfineVoid method.body
      | _ => false) = true := by
    decide +kernel
  split at hrun
  next package' analysis log hcheck =>
    refine ⟨package', analysis, log, hcheck, fun hconfined => ?_⟩
    obtain ⟨method, hmem, hleaks⟩ := List.any_eq_true.1 hrun
    rw [hconfined.bodies method hmem] at hleaks
    cases hleaks
  next => cases hrun

end Package

end SmallJava
