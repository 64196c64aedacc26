import SmallJava.Proofs.Codegen.StmtEmission
import SmallJava.Proofs.Execution.Statements

namespace SmallJava

open Exec

namespace GenState

/-- The code that was generated so far as a program, in which methods that have no place yet stand
    anywhere. -/
def draft (g : GenState) : Image :=
  let slot? : SymbolId → Option Int := fun x => some ((g.table.slot? x).getD 0)
  { fetch := fun a => (g.asm.code.get? a).map fun instr =>
      { instr with d := g.asm.finalOperand slot? (fun _ => none) a instr.d }
    signature := g.table.signature
    slot? }

theorem realizes_draft (g : GenState) : g.Realizes g.draft fun _ => none where
  signature := rfl
  slots := fun x d hslot => by simp [draft, hslot]
  placed := fun _ _ => rfl
  code := fun _ _ => rfl

end GenState

/-- What a step of code generation emits has its shape in some program with the same
    declarations. -/
theorem Emits.exists_shape {s s' : GenState} {P : Image → Prop}
    (h : Emits s s' [] fun im _ => P im) (hnoted : s.asm.Noted) :
    ∃ im : Image, im.signature = s.table.signature ∧ s'.table.signature = s.table.signature ∧
      s'.asm.Noted ∧ P im := by
  obtain ⟨hshape, hrealizes⟩ := h.shape hnoted s'.draft _ (fun _ => 0) s'.realizes_draft
    fun _ _ _ => by simp
  exact ⟨s'.draft, hrealizes.signature.symm, hrealizes.signature.symm, h.noted hnoted, hshape⟩

/-- In a run that comes to an end, so does its first part. -/
theorem Exec.next_of_followedBy {first : Exec Leave} {rest : Valuation → Exec Leave} {S S' : Store}
    {env' : Valuation} (hrun : first.followedBy rest S = .ok (.next env') S') :
    ∃ env₁ S₁, first S = .ok (.next env₁) S₁ ∧ rest env₁ S₁ = .ok (.next env') S' := by
  obtain ⟨leave, S₁, hfirst, hrest⟩ := bind_eq_ok_iff.1 hrun
  cases leave with
  | next env₁ => exact ⟨env₁, S₁, hfirst, hrest⟩
  | «return» result => cases (pure_eq_ok_iff.1 hrest).1

variable {im : Image} {sc : Scene} {Γ : Context} {site : Site} {locals locals' more : List SymbolId}
  {known known' known'' : Dict SymbolId Word} {W : HeapTyping} {env env' : Valuation} {S S' : Store}

/-- What is known of the value of an expression is what the evaluation yields. -/
theorem Expr.ValueCode.is_of_eval {vars : List SymbolId} {fold : Folding}
    (hfold : fold.Faithful sc Γ vars env) {expr : Expr} {value : Value} {a b : Nat} {d : Datum} :
    expr.ValueCode im fold value a b → expr.HasValue Γ vars → expr.eval sc env S = .ok d S' →
      value.Is d
  | .constant hword => by
    intro htyped heval
    rw [hfold _ _ htyped hword] at heval
    exact (pure_eq_ok_iff.1 heval).1.symm
  | .leftDecides hfamily hword => by
    intro htyped heval
    rw [eval_logical hfamily, hfold _ _ htyped.binary.1 hword, pure_bind,
      if_pos (Datum.ofWord_ofBool _)] at heval
    exact (pure_eq_ok_iff.1 heval).1.symm
  | .rightRemains hfamily hword hne hright => by
    intro htyped heval
    have hother : Datum.ofWord _ ≠ .ofBool _ := fun heq => hne (Datum.ofWord_inj.1 heq)
    rw [eval_logical hfamily, hfold _ _ htyped.binary.1 hword, pure_bind, if_neg hother] at heval
    exact hright.is_of_eval hfold htyped.binary.2 heval
  | .rightDecides hfamily hleft hword hpop => by
    intro htyped heval
    rw [eval_logical hfamily, hfold _ _ htyped.binary.2 hword] at heval
    obtain ⟨d', S₁, -, heval⟩ := bind_eq_ok_iff.1 heval
    rw [pure_decisive] at heval
    exact (pure_eq_ok_iff.1 heval).1.symm
  | .unary .. | .binary .. | .leftRemains .. | .logical .. | .choiceKnown .. | .choice .. | .ref ..
  | .index .. | .call .. | .newObject .. | .newArray .. => fun _ _ => trivial

/-- An assignment to a field changes no variable. -/
theorem Scene.env_of_assign_field {owner value : Exec Datum} {name : Ident} {x cls : SymbolId}
    {modifiers : Modifiers} (hbound : name.binding = some x)
    (hkind : sc.sig.kind? x = some (.field cls modifiers))
    (hrun : sc.assign env owner name value S = .ok env' S') : env' = env := by
  cases hstatic : modifiers.isStatic with
  | true =>
    rw [assign_static hbound hkind hstatic] at hrun
    obtain ⟨_, _, -, hrun⟩ := bind_eq_ok_iff.1 hrun
    obtain ⟨_, _, -, hrun⟩ := bind_eq_ok_iff.1 hrun
    exact (pure_eq_ok_iff.1 hrun).1.symm
  | false =>
    rw [assign_field hbound hkind hstatic] at hrun
    obtain ⟨_, _, -, hrun⟩ := bind_eq_ok_iff.1 hrun
    obtain ⟨_, _, -, hrun⟩ := bind_eq_ok_iff.1 hrun
    obtain ⟨_, _, -, hrun⟩ := bind_eq_ok_iff.1 hrun
    obtain ⟨_, _, -, hrun⟩ := bind_eq_ok_iff.1 hrun
    exact (pure_eq_ok_iff.1 hrun).1.symm

/-- After an assignment, what is tracked is right if what is known of the assigned value is. -/
theorem Reference.tracks_of_assign {vars : List SymbolId} {target : Reference} {ty : Ty}
    {destination : Destination} {left : SmallJava.Value} {value : Exec Datum} {a b c : Nat}
    (hsig : sc.sig = Γ.sig) (him : im.signature = Γ.sig)
    (hknows : Γ.Knows vars env (site.relies known)) (htarget : target.Value Γ vars ty)
    (hcode : target.DestinationCode im destination a b)
    (hstore : StoreCode im site target left known destination c known')
    (hvalue : ∀ d S₁, value S = .ok d S₁ → left.Is d)
    (hrun : target.assign sc env value S = .ok env' S') :
    site.Tracks Γ vars vars env env' known' := by
  cases hcode with
  | @«variable» _ name x _ _ _ hbound hbase =>
    cases htarget with
    | «variable» hbound' _ hkind =>
      obtain rfl := Option.some.inj (hbound'.symm.trans hbound)
      obtain rfl := Option.some.inj ((base_of_variable (him ▸ hkind)).symm.trans hbase)
      have hrun : sc.assign env (pure sc.this) name value S = .ok env' S' := hrun
      rw [Scene.assign_variable hbound (hsig.symm ▸ hkind)] at hrun
      obtain ⟨d, S₁, hd, hrun⟩ := bind_eq_ok_iff.1 hrun
      obtain ⟨rfl, -⟩ := pure_eq_ok_iff.1 hrun
      cases hstore with
      | field hother => exact absurd rfl hother
      | «variable» => exact .assign hknows hbound hkind (hvalue d S₁ hd)
    | @ownField _ _ _ modifiers hbound' hkind =>
      obtain rfl := Option.some.inj (hbound'.symm.trans hbound)
      obtain rfl := Scene.env_of_assign_field hbound (hsig.symm ▸ hkind) hrun
      rw [him, hkind] at hbase
      cases hstore with
      | field => exact .refl hknows
      | «variable» => cases hstatic : modifiers.isStatic <;> simp [SymbolKind.base?, hstatic] at hbase
  | staticField hbound hkind | ownField hbound hkind =>
    obtain rfl := Scene.env_of_assign_field hbound (by rw [hsig, ← him]; exact hkind) hrun
    cases hstore with
    | field => exact .refl hknows
  | field hbound hkind =>
    obtain rfl := Scene.env_of_assign_field hbound (by rw [hsig, ← him]; exact hkind) hrun
    cases hstore with
    | otherField => exact .refl hknows

/-- What is known of the variables stays right when this runs to its end. -/
def Scene.Learns (sc : Scene) (Γ : Context) (site : Site) (locals locals' : List SymbolId)
    (known known' : Dict SymbolId Word) (exec : Valuation → Exec Leave) : Prop :=
  ∀ ⦃W env S env' S'⦄, sc.Ready Γ (Γ.params ++ locals) 0 W env S 0 →
    Γ.Knows (Γ.params ++ locals) env (site.relies known) → exec env S = .ok (.next env') S' →
      site.Tracks Γ (Γ.params ++ locals) (Γ.params ++ locals') env env' known'

/-- After something that makes sense, everything has its type again. -/
theorem Scene.Ready.after {α : Type} {vars : List SymbolId} (h : sc.Ready Γ vars 0 W env S 0)
    {x : Exec α} {R : HeapTyping → α → Prop} (hsound : Sound Γ.sig W x R) {a : α}
    (hrun : x S = .ok a S') : ∃ W', sc.Ready Γ vars 0 W' env S' 0 ∧ R W' a := by
  obtain ⟨W', hle, hS', ha⟩ := (hsound S h.store).2 a S' hrun
  exact ⟨W', ⟨h.scene.mono hle, h.env.mono hle, hS', h.started⟩, ha⟩

/-- The same goes for the variables that a statement brought into force. -/
theorem Scene.Ready.next {vars vars' : List SymbolId} {ty : Ty} (h : sc.Ready Γ vars 0 W env S 0)
    {x : Exec Leave} (hsound : Sound Γ.sig W x fun W' => Leave.Typed Γ.sig W' vars' ty)
    (hrun : x S = .ok (.next env') S') : ∃ W', sc.Ready Γ vars' 0 W' env' S' 0 := by
  obtain ⟨W', hready, henv'⟩ := h.after hsound hrun
  exact ⟨W', hready.scene, henv', hready.store, hready.started⟩

namespace Scene.Learns

variable {exec first : Valuation → Exec Leave} {rest : Valuation → Exec Leave}

theorem refl : sc.Learns Γ site locals locals known known fun env => pure (.next env) := by
  intro W env S env' S' _ hknows hrun
  obtain ⟨heq, -⟩ := pure_eq_ok_iff.1 hrun
  obtain rfl := Leave.next.inj heq
  exact .refl hknows

/-- What does not change the variables teaches nothing. -/
theorem of_same (h : ∀ ⦃env S env' S'⦄, exec env S = .ok (.next env') S' → env' = env) :
    sc.Learns Γ site locals locals known known exec := by
  intro W env S env' S' _ hknows hrun
  obtain rfl := h hrun
  exact .refl hknows

theorem subset (h : sc.Learns Γ site locals (locals ++ more) known known' exec) :
    sc.Learns Γ site locals locals known known' exec :=
  fun _ _ _ _ _ hready hknows hrun => (h hready hknows hrun).subset (Γ.subset_more _ _)

/-- What is learned from one statement and from what follows it is learned from both in a row. -/
theorem followedBy (hfirst : sc.Learns Γ site locals (locals ++ more) known known' first)
    (hsound : ∀ (W : HeapTyping) env, sc.Typed Γ W → env.Typed Γ.sig W (Γ.params ++ locals) →
      Sound Γ.sig W (first env) fun W' =>
        Leave.Typed Γ.sig W' (Γ.params ++ (locals ++ more)) Γ.returnTy)
    (hrest : sc.Learns Γ site (locals ++ more) locals' known' known'' rest)
    (hforgets : site.inLoop = true → Γ.Forgets (Γ.params ++ (locals ++ more)) known' known'') :
    sc.Learns Γ site locals locals' known known'' fun env => (first env).followedBy rest := by
  intro W env S env' S' hready hknows hrun
  obtain ⟨env₁, S₁, hrun, hrun'⟩ := next_of_followedBy hrun
  obtain ⟨W₁, hready₁⟩ := hready.next (hsound W env hready.scene hready.env) hrun
  have htracks := hfirst hready hknows hrun
  exact htracks.trans (hrest hready₁ htracks.knows hrun') (Γ.subset_more _ _) hforgets

/-- What a branch leaves known is right after it, and so is less. -/
theorem ofBranch (h : sc.Learns Γ site.branch locals locals known known' exec) :
    sc.Learns Γ site locals locals known known' exec := by
  intro W env S env' S' hready hknows hrun
  have htracks := h hready hknows hrun
  exact ⟨htracks.knows, htracks.keeps⟩

/-- Less may be known afterwards. -/
theorem forget (h : sc.Learns Γ site locals locals known known' exec)
    (hforgets : Γ.Forgets (Γ.params ++ locals) known' known'') :
    sc.Learns Γ site locals locals known known'' exec :=
  fun _ _ _ _ _ hready hknows hrun => (h hready hknows hrun).forget hforgets

/-- More may be known before. -/
theorem ofForgotten (h : sc.Learns Γ site locals locals' known' known'' exec)
    (hforgets : Γ.Forgets (Γ.params ++ locals) known known') :
    sc.Learns Γ site locals locals' known known'' exec :=
  fun _ _ _ _ _ hready hknows hrun => h hready ((Site.Tracks.refl hknows).forget hforgets).knows hrun

/-- After a loop, what is still known is right if the rounds kept it. -/
theorem ofLoop (h : sc.Learns Γ site.loop locals locals known known' exec)
    (hforgets : Γ.Forgets (Γ.params ++ locals) known known') :
    sc.Learns Γ site locals locals known known' exec := by
  intro W env S env' S' hready hknows hrun
  have hkept := (h hready (Site.knows_of_loop rfl) hrun).keeps rfl
  refine ⟨Site.knows_relies fun hloop => ?_, fun _ => hkept⟩
  rw [Site.relies_straight hloop] at hknows
  exact hknows.forget hforgets hkept

end Scene.Learns

namespace Stmt

/-- The rounds of a loop leave the variables as they were that each of them leaves so. -/
theorem keeps_loop {vars : List SymbolId} {cond : Valuation → Exec Bool}
    {round : Valuation → Exec Leave}
    (hcond : ∀ (W : HeapTyping) env, sc.Typed Γ W → env.Typed Γ.sig W vars →
      Sound Γ.sig W (cond env) fun _ _ => True)
    (hsound : ∀ (W : HeapTyping) env, sc.Typed Γ W → env.Typed Γ.sig W vars →
      Sound Γ.sig W (round env) fun W' => Leave.Typed Γ.sig W' vars Γ.returnTy)
    (hround : ∀ ⦃W env S env' S'⦄, sc.Ready Γ vars 0 W env S 0 →
      round env S = .ok (.next env') S' → Valuation.Keeps vars known env env')
    (count : Nat) (hready : sc.Ready Γ vars 0 W env S 0)
    (hrun : loop cond round count env S = .ok (.next env') S') : Valuation.Keeps vars known env env' := by
  induction count generalizing W env S with
  | zero => cases hrun
  | succ count ih =>
    obtain ⟨goesOn, S₁, htest, hrun⟩ := bind_eq_ok_iff.1 hrun
    obtain ⟨W₁, hready₁, -⟩ := hready.after (hcond W env hready.scene hready.env) htest
    cases goesOn with
    | false =>
      obtain ⟨heq, -⟩ := pure_eq_ok_iff.1 hrun
      obtain rfl := Leave.next.inj heq
      exact fun _ _ _ _ => rfl
    | true =>
      obtain ⟨env₁, S₂, hfirst, hrest⟩ := next_of_followedBy hrun
      obtain ⟨W₂, hready₂⟩ := hready₁.next (hsound W₁ env hready₁.scene hready₁.env) hfirst
      intro x hmem word hget
      rw [ih hready₂ hrest x hmem word hget, hround hready₁ hfirst x hmem word hget]

/-- In a declaration, what is known of the value is known of the variable. -/
theorem learns_varDecl {span : Span} {var : LocalDef} {init : Expr} {x : SymbolId} {value : Value}
    {a b : Nat} (hbound : var.binding = some x)
    (hinit : init.ValueCode im (site.fold known) value a b)
    (htyped : (varDecl span var init).WellTyped Γ locals) :
    sc.Learns Γ site locals (locals ++ (varDecl span var init).binds) known (value.record x known)
      ((varDecl span var init).exec sc) := by
  cases htyped with
  | varDecl hbound' hkind hfresh hinit' hfits =>
    obtain rfl := Option.some.inj (hbound'.symm.trans hbound)
    intro W env S env' S' hready hknows hrun
    have hvoid := hfits.ne_void (hready.scene.voidFree.symbols _ _ hkind rfl)
    rw [exec, hbound] at hrun
    obtain ⟨d, S₁, heval, hrun⟩ := bind_eq_ok_iff.1 hrun
    obtain ⟨heq, -⟩ := pure_eq_ok_iff.1 hrun
    obtain rfl := Leave.next.inj heq
    have hd := hinit.is_of_eval (site.faithful hready.scene.sig hknows) ⟨_, hinit', hvoid⟩ heval
    refine .declare hknows hfresh hkind hd fun y hmem hne => ?_
    simpa [binds, hbound, hne] using hmem

/-- In an assignment to a variable, what is known of the value is known of the variable. -/
theorem learns_assign {span : Span} {target : Reference} {expr : Expr} {destination : Destination}
    {value : Value} {a b c e : Nat} (him : im.signature = Γ.sig)
    (htarget : target.DestinationCode im destination a b)
    (hvalue : expr.ValueCode im (site.fold known) value b c)
    (hstore : StoreCode im site target value known destination e known')
    (htyped : (Stmt.assign span target expr).WellTyped Γ locals) :
    sc.Learns Γ site locals (locals ++ (Stmt.assign span target expr).binds) known known'
      ((Stmt.assign span target expr).exec sc) := by
  cases htyped with
  | assign htarget' _ hvalue' hfits =>
    intro W env S env' S' hready hknows hrun
    have hvoid := hfits.ne_void (htarget'.avoidsVoid hready.scene.voidFree)
    obtain ⟨env₁, S₁, hassign, hrun⟩ := bind_eq_ok_iff.1 hrun
    obtain ⟨heq, -⟩ := pure_eq_ok_iff.1 hrun
    obtain rfl := Leave.next.inj heq
    simp only [binds, List.append_nil]
    exact Reference.tracks_of_assign hready.scene.sig him hknows htarget' htarget hstore
      (fun d S₂ heval => hvalue.is_of_eval (site.faithful hready.scene.sig hknows)
        ⟨_, hvalue', hvoid⟩ heval) hassign

/-- From an assignment to an array element nothing is learned of the variables. -/
theorem learns_indexAssign {span : Span} {target : Reference} {subscript value : Expr} :
    sc.Learns Γ site locals locals known known
      ((indexAssign span target subscript value).exec sc) := by
  refine .of_same fun env S env' S' hrun => ?_
  obtain ⟨_, _, -, hrun⟩ := bind_eq_ok_iff.1 hrun
  obtain ⟨_, _, -, hrun⟩ := bind_eq_ok_iff.1 hrun
  obtain ⟨_, _, -, hrun⟩ := bind_eq_ok_iff.1 hrun
  obtain ⟨_, _, -, hrun⟩ := bind_eq_ok_iff.1 hrun
  obtain ⟨_, _, -, hrun⟩ := bind_eq_ok_iff.1 hrun
  exact (Leave.next.inj (pure_eq_ok_iff.1 hrun).1).symm

theorem learns_call {span : Span} {callee : Reference} {args : List Expr} :
    sc.Learns Γ site locals locals known known ((call span callee args).exec sc) := by
  refine .of_same fun env S env' S' hrun => ?_
  obtain ⟨_, _, -, hrun⟩ := bind_eq_ok_iff.1 hrun
  obtain ⟨_, _, -, hrun⟩ := bind_eq_ok_iff.1 hrun
  exact (Leave.next.inj (pure_eq_ok_iff.1 hrun).1).symm

/-- Nothing is tracked past a return. -/
theorem learns_return {span : Span} {value : Option Expr} :
    sc.Learns Γ site locals locals' known known' ((Stmt.return span value).exec sc) := by
  intro W env S env' S' _ _ hrun
  cases value with
  | none => cases (pure_eq_ok_iff.1 hrun).1
  | some value =>
    obtain ⟨_, _, -, hrun⟩ := bind_eq_ok_iff.1 hrun
    cases (pure_eq_ok_iff.1 hrun).1

/-- If the outcome of a test is known, what is right after the branch that is taken is right. -/
theorem learns_ifKnown {span : Span} {cond : Expr} {onTrue : Stmt} {onFalse : Option Stmt}
    {outcome : Bool} {a b target : Nat}
    (hcond : cond.CondCode im (site.fold known) false (some outcome) a b target)
    (htyped : cond.HasType Γ (Γ.params ++ locals) .boolean)
    (htaken : sc.Learns Γ site locals locals known known'
      fun env => if outcome then onTrue.exec sc env else execOption sc onFalse env) :
    sc.Learns Γ site locals locals known known' ((ifElse span cond onTrue onFalse).exec sc) := by
  intro W env S env' S' hready hknows hrun
  rw [exec, hcond.eval_of_known hready (site.faithful hready.scene.sig hknows) rfl htyped, pure_bind,
    Datum.holds_ofBool] at hrun
  exact htaken hready hknows hrun

/-- What is right after both branches is right after a conditional. -/
theorem learns_ifElse {span : Span} {cond : Expr} {onTrue : Stmt} {onFalse : Option Stmt}
    (htyped : cond.HasType Γ (Γ.params ++ locals) .boolean)
    (hTrue : sc.Learns Γ site locals locals known known' (onTrue.exec sc))
    (hFalse : sc.Learns Γ site locals locals known known' (execOption sc onFalse)) :
    sc.Learns Γ site locals locals known known' ((ifElse span cond onTrue onFalse).exec sc) := by
  intro W env S env' S' hready hknows hrun
  obtain ⟨d, S₁, hcond, hrun⟩ := bind_eq_ok_iff.1 hrun
  obtain ⟨W₁, hready₁, -⟩ :=
    hready.after (htyped.sound hready.scene hready.env Ty.boolean_ne_void) hcond
  cases hholds : d.holds with
  | true =>
    rw [hholds, if_pos rfl] at hrun
    exact hTrue hready₁ hknows hrun
  | false =>
    rw [hholds, if_neg (by simp)] at hrun
    exact hFalse hready₁ hknows hrun

/-- A loop changes the variables only in its rounds. -/
theorem learns_loop {cond : Option Expr} {body : Stmt} {update : Option Stmt}
    (hloop : site.inLoop = true) (hbody : body.BranchWellTyped Γ locals)
    (hplain : body.plainUpdates = true) (hupdate : ∀ stmt ∈ update, stmt.WellTyped Γ locals)
    (hdeclares : ∀ stmt ∈ update, stmt.isVarDecl = false) (hplain' : optionPlainUpdates update = true)
    (hfirst : sc.Learns Γ site locals (locals ++ body.binds) known known' (body.exec sc))
    (hrest : sc.Learns Γ site locals (locals ++ optionBinds update) known' known''
      (execOption sc update))
    (hforgets : Γ.Forgets (Γ.params ++ locals) known' known'')
    (hcond : ∀ expr ∈ cond, expr.HasType Γ (Γ.params ++ locals) .boolean) :
    sc.Learns Γ site locals locals known known''
      (loop (goesOn sc cond) (fun env => (body.exec sc env).followedBy (execOption sc update))
        sc.rounds) := by
  rw [optionBinds_of_plain hdeclares, List.append_nil] at hrest
  have hbinds := binds_of_plain hbody.plain
  rw [hbinds] at hfirst
  have hsame := List.append_nil locals
  have hround : sc.Learns Γ site locals locals known known''
      fun env => (body.exec sc env).followedBy (execOption sc update) := by
    refine hfirst.followedBy (fun W env hscene henv => ?_) (hsame.symm ▸ hrest)
      fun _ => hsame.symm ▸ hforgets
    rw [← hbinds]
    exact hbody.typed.sound hscene henv hplain
  intro W env S env' S' hready _ hrun
  have hkept := keeps_loop (fun W env hscene henv => sound_goesOn hscene henv hcond)
    (fun W env hscene henv => sound_round hscene henv hbody hplain hupdate hdeclares hplain')
    (fun W env S env' S' hready hrun => (hround hready (Site.knows_of_loop hloop) hrun).keeps hloop)
    sc.rounds hready hrun
  exact ⟨Site.knows_of_loop hloop, fun _ => hkept⟩

mutual

/-- What the generator tracks along a statement stays right when the statement is executed. -/
theorem Code.learns {site : Site} {stmt : Stmt} {locals : List SymbolId} {φ φ' : Tracked} {a b : Nat}
    (him : im.signature = Γ.sig) : stmt.Code im site φ a b φ' → stmt.WellTyped Γ locals →
      stmt.plainUpdates = true →
        sc.Learns Γ site locals (locals ++ stmt.binds) φ.known φ'.known (stmt.exec sc)
  | .block hstmts _ => by
    intro htyped hplain
    cases htyped with
    | block hstmts' =>
      have hlearns := hstmts.learns him hstmts' hplain
      simp only [binds, List.append_nil]
      exact hlearns
  | .varDeclKnown hbound _ hinit _ => fun htyped _ => learns_varDecl hbound hinit htyped
  | .varDecl hbound _ hinit => fun htyped _ => learns_varDecl hbound hinit htyped
  | .assignKnown htarget hvalue _ hstore => by
    intro htyped _
    exact learns_assign him htarget hvalue hstore htyped
  | .assign htarget hvalue hstore => fun htyped _ => learns_assign him htarget hvalue hstore htyped
  | .indexAssign .. => by
    intro _ _
    simp only [binds, List.append_nil]
    exact learns_indexAssign
  | .call .. => by
    intro _ _
    simp only [binds, List.append_nil]
    exact learns_call
  | .returnValue .. | .return .. => fun _ _ => learns_return
  | .ifTrue hcond hTrue => by
    intro htyped hplain
    obtain ⟨hplain, -⟩ := Bool.and_eq_true_iff.1 (by simpa [plainUpdates] using hplain)
    cases htyped with
    | ifElse hcond' hTrue' _ =>
      have hlearns := hTrue.learns him hTrue'.typed hplain
      rw [binds_of_plain hTrue'.plain, List.append_nil] at hlearns
      simp only [binds, List.append_nil]
      exact learns_ifKnown hcond hcond' hlearns
  | .ifFalse hcond hFalse => by
    intro htyped hplain
    obtain ⟨-, hplain⟩ := Bool.and_eq_true_iff.1 (by simpa [plainUpdates] using hplain)
    cases htyped with
    | ifElse hcond' _ hFalse' =>
      have hlearns := hFalse.learns him (fun stmt hmem => (hFalse' stmt hmem).typed) hplain
      rw [optionBinds_of_plain fun stmt hmem => (hFalse' stmt hmem).plain, List.append_nil] at hlearns
      simp only [binds, List.append_nil]
      exact learns_ifKnown hcond hcond' hlearns
  | .ifOnly _ hTrue => by
    intro htyped hplain
    obtain ⟨hplain, -⟩ := Bool.and_eq_true_iff.1 (by simpa [plainUpdates] using hplain)
    cases htyped with
    | ifElse hcond' hTrue' _ =>
      have hlearns := hTrue.learns him hTrue'.typed hplain
      rw [binds_of_plain hTrue'.plain, List.append_nil] at hlearns
      simp only [binds, List.append_nil]
      exact learns_ifElse hcond' hlearns.ofBranch
        (Scene.Learns.refl.forget (hTrue.forgets rfl hTrue'.typed))
  | .ifElse _ hTrue _ hFalse => by
    intro htyped hplain
    obtain ⟨hplain, hplain'⟩ := Bool.and_eq_true_iff.1 (by simpa [plainUpdates] using hplain)
    cases htyped with
    | ifElse hcond' hTrue' hFalse' =>
      have hFalse' := hFalse' _ rfl
      have hlearns := hTrue.learns him hTrue'.typed hplain
      have hlearns' := hFalse.learns him hFalse'.typed hplain'
      rw [binds_of_plain hTrue'.plain, List.append_nil] at hlearns
      rw [binds_of_plain hFalse'.plain, List.append_nil] at hlearns'
      simp only [binds, List.append_nil]
      -- The code of one branch is generated with what is known after the other, which is less.
      exact learns_ifElse hcond' (hlearns.ofBranch.forget (hFalse.forgets rfl hFalse'.typed))
        (hlearns'.ofBranch.ofForgotten (hTrue.forgets rfl hTrue'.typed))
  | @Code.while _ _ _ cond body _ _ _ _ hloop => by
    intro htyped hplain
    cases htyped with
    | «while» hcond hbody =>
      have hcond : ∀ expr ∈ some cond, expr.HasType Γ (Γ.params ++ locals) .boolean := by simpa using hcond
      have hplain : body.plainUpdates = true := by simpa [plainUpdates] using hplain
      have hlearns := hloop.learns him rfl hplain (rfl : optionPlainUpdates none = true) (by simp) hcond
        hbody (by simp)
      simp only [followedBy_none] at hlearns
      have hbody : body.WellTyped Γ (locals ++ []) := by simpa using hbody.typed
      simp only [binds, List.append_nil]
      exact hlearns.ofLoop (hloop.forgets (by simp [Site.loop]) hbody (by simp))
  | .for hinit hloop _ => by
    intro htyped hplain
    obtain ⟨hplain₁, hdeclares, hplain₂, hplain₃⟩ := plain_of_plainUpdates hplain
    cases htyped with
    | «for» hinit' hcond hupdate hbody =>
      have hforgets := hloop.forgets (by simp [Site.loop]) hbody.typed hupdate
      rw [optionBinds_of_plain hdeclares, List.append_nil] at hbody
      have hlearns := hinit.learns him hinit' hplain₁
      have hlearns' := hloop.learns him rfl hplain₃ hplain₂ hdeclares hcond hbody hupdate
      simp only [binds, List.append_nil]
      exact (hlearns.followedBy (fun W env hscene henv => sound_init hscene henv hinit' hplain₁)
        (hlearns'.ofLoop hforgets) fun _ => hforgets).subset

/-- What is still known after a loop, its rounds have kept. -/
theorem LoopCode.learns {site : Site} {cond : Option Expr} {body : Stmt} {update : Option Stmt}
    {locals : List SymbolId} {φ φ' : Tracked} {a b : Nat} (him : im.signature = Γ.sig)
    (hloop : site.inLoop = true) (hplain : body.plainUpdates = true)
    (hplain' : optionPlainUpdates update = true)
    (hdeclares : ∀ stmt ∈ update, stmt.isVarDecl = false) :
    LoopCode im site cond body update φ a b φ' →
      (∀ expr ∈ cond, expr.HasType Γ (Γ.params ++ locals) .boolean) →
        body.BranchWellTyped Γ locals → (∀ stmt ∈ update, stmt.WellTyped Γ locals) →
          sc.Learns Γ site locals locals φ.known φ'.known
            (loop (goesOn sc cond)
              (fun env => (body.exec sc env).followedBy (execOption sc update)) sc.rounds)
  | .skip htest => by
    intro hcond _ _ W env S env' S' hready hknows hrun
    cases hcount : sc.rounds with
    | zero =>
      rw [hcount] at hrun
      cases hrun
    | succ count =>
      rw [hcount, loop, htest.goesOn_of_known hready (site.faithful hready.scene.sig hknows) hcond] at hrun
      obtain rfl := Leave.next.inj (pure_eq_ok_iff.1 hrun).1
      exact .refl hknows
  | .forever _ hbody hupdate _ => by
    intro hcond hbody' hupdate'
    exact learns_loop hloop hbody' hplain hupdate' hdeclares hplain' (hbody.learns him hbody'.typed hplain)
      (hupdate.learns him hupdate' hplain') (hupdate.forgets (by simp [hloop]) hupdate') hcond
  | .test _ hbody hupdate _ => by
    intro hcond hbody' hupdate'
    exact learns_loop hloop hbody' hplain hupdate' hdeclares hplain' (hbody.learns him hbody'.typed hplain)
      (hupdate.learns him hupdate' hplain') (hupdate.forgets (by simp [hloop]) hupdate') hcond

/-- What the code of a statement that may be left out knows afterwards is right after its execution.
    -/
theorem OptionCode.learns {site : Site} {stmt : Option Stmt} {locals : List SymbolId} {φ φ' : Tracked}
    {a b : Nat} (him : im.signature = Γ.sig) :
    OptionCode im site stmt φ a b φ' → (∀ s ∈ stmt, s.WellTyped Γ locals) →
      optionPlainUpdates stmt = true →
        sc.Learns Γ site locals (locals ++ optionBinds stmt) φ.known φ'.known (execOption sc stmt)
  | .none => by
    intro _ _
    simp only [optionBinds, Option.map_none, Option.getD_none, List.append_nil]
    exact .refl
  | .some hstmt => fun htyped hplain => hstmt.learns him (htyped _ rfl) hplain

/-- What the code of a list of statements knows afterwards is right after their execution. -/
theorem ListCode.learns {site : Site} {stmts : List Stmt} {locals : List SymbolId} {φ φ' : Tracked}
    {a b : Nat} (him : im.signature = Γ.sig) :
    ListCode im site stmts φ a b φ' → ListWellTyped Γ locals stmts → allPlainUpdates stmts = true →
      sc.Learns Γ site locals locals φ.known φ'.known (execAll sc stmts)
  | .nil => fun _ _ => .refl
  | .cons hstmt hrest => by
    intro htyped hplain
    cases htyped with
    | cons hstmt' hrest' =>
      obtain ⟨hplain, hplain'⟩ := Bool.and_eq_true_iff.1 (by simpa [allPlainUpdates] using hplain)
      have hlearns := hstmt.learns him hstmt' hplain
      have hlearns' := hrest.learns him hrest' hplain'
      exact (hlearns.followedBy (fun W env hscene henv => hstmt'.sound hscene henv hplain) hlearns'
        fun hloop => hrest.forgets (by simp [hloop]) hrest').subset

end

end Stmt

end SmallJava
