import SmallJava.Proofs.Execution.Assignments
import SmallJava.Proofs.Execution.Loops
import SmallJava.Proofs.Frame.Statement

namespace SmallJava

open Machine Exec

namespace Activation

variable {act : Activation} {locals more : List SymbolId} {env : Valuation} {S : Store} {a : Nat}

/-- A word that is pushed as a new local variable comes into force is the value of that. -/
theorem machine_declare {x : SymbolId} {d : Datum} (hnew : x ∉ act.params ++ locals) :
    act.machine (locals ++ [x]) (Function.update env x d) S [] a = act.machine locals env S [d] a := by
  obtain ⟨hparams, hlocals⟩ := not_or.1 (mt List.mem_append.2 hnew)
  simp [machine, words, map_update_of_not_mem hparams, map_update_of_not_mem hlocals]

/-- Local variables that are no longer in force are words on top of the frame. -/
theorem machine_release :
    act.machine (locals ++ more) env S [] a = act.machine locals env S (more.map env) a := by
  simp [machine, words]

/-- From one address to another, the machine executes a statement, wherever what is known of the
    variables is right, and what is known afterwards is right again. -/
def Runs (act : Activation) (im : Image) (sc : Scene) (Γ : Context) (deadline start : Nat)
    (site : Site) (locals locals' : List SymbolId) (known known' : Dict SymbolId Word) (a b : Nat)
    (exec : Valuation → Exec Leave) : Prop :=
  ∀ (W : HeapTyping) env S t, sc.Ready Γ (Γ.params ++ locals) start W env S t →
    Γ.Knows (Γ.params ++ locals) env (site.relies known) →
      Follows im.fetch deadline t (act.machine locals env S [] a) (exec env S)
        (Leave.Lands act locals' b fun env' =>
          site.Tracks Γ (Γ.params ++ locals) (Γ.params ++ locals') env env' known')

/-- From one address to another, the machine evaluates an expression, wherever what is known of
    expressions is right, and leaves its value on the stack. -/
def Evaluates (act : Activation) (im : Image) (sc : Scene) (Γ : Context) (deadline start : Nat)
    (locals : List SymbolId) (fold : Folding) (expr : Expr) (value : Value) (a b : Nat) : Prop :=
  ∀ (W : HeapTyping) env S t temps, sc.Ready Γ (Γ.params ++ locals) start W env S t →
    fold.Faithful sc Γ (Γ.params ++ locals) env → expr.HasValue Γ (Γ.params ++ locals) →
      Follows im.fetch deadline t (act.machine locals env S temps a) (expr.eval sc env S)
        fun d S' _ m' => value.Is d ∧ m' = act.machine locals env S' (temps ++ [d]) b

end Activation

variable {act : Activation} {im : Image} {sc : Scene} {Γ : Context} {deadline start : Nat}
  {site : Site} {locals locals' more : List SymbolId}
  {known known' known'' : Dict SymbolId Word} {a b c : Nat}

namespace Activation.Runs

theorem refl : act.Runs im sc Γ deadline start site locals locals known known a a
    fun env => pure (.next env) :=
  fun _ _ _ _ _ hknows => .pure ⟨rfl, .refl hknows⟩

/-- One statement after the other. -/
theorem followedBy {first : Valuation → Exec Leave} {rest : Valuation → Exec Leave}
    (hfirst : act.Runs im sc Γ deadline start site locals (locals ++ more) known known' a b first)
    (hsound : ∀ (W : HeapTyping) env, sc.Typed Γ W → env.Typed Γ.sig W (Γ.params ++ locals) →
      Sound Γ.sig W (first env) fun W' =>
        Leave.Typed Γ.sig W' (Γ.params ++ (locals ++ more)) Γ.returnTy)
    (hrest : act.Runs im sc Γ deadline start site (locals ++ more) locals' known' known'' b c rest)
    (hforgets : site.inLoop = true → Γ.Forgets (Γ.params ++ (locals ++ more)) known' known'') :
    act.Runs im sc Γ deadline start site locals locals' known known'' a c
      fun env => (first env).followedBy rest := by
  intro W env S t hready hknows
  refine (hfirst W env S t hready hknows).followedBy hready (hsound W env hready.scene hready.env)
    fun env' S' t₁ W' _ hready' htracks => ?_
  exact (hrest W' env' S' t₁ hready' htracks.knows).weaken fun env'' htracks' =>
    htracks.trans htracks' (Γ.subset_more _ _) hforgets

/-- The end of a block drops its variables. -/
theorem release {exec : Valuation → Exec Leave} {next next' : Int}
    (h : act.Runs im sc Γ deadline start site locals (locals ++ more) known known' a b exec)
    (hframe : im.Frame Γ.params locals next) (hframe' : im.Frame Γ.params (locals ++ more) next')
    (hpop : PopCode im (next' - next) b c) :
    act.Runs im sc Γ deadline start site locals locals known known' a c exec := by
  have hnext := hframe.next_eq
  have hnext' := hframe'.next_eq
  rw [List.length_append] at hnext'
  intro W env S t hready hknows
  refine (h W env S t hready hknows).proceed fun env' S' t₁ htracks =>
    ⟨htracks.subset (Γ.subset_more _ _), ?_⟩
  rw [Activation.machine_release, ← List.nil_append (more.map env')]
  cases hpop with
  | some _ hpop => exact ⟨_, hpop.reach_pop (by rw [List.length_map]; omega)⟩
  | none hcount =>
    obtain rfl : more = [] := List.eq_nil_of_length_eq_zero (by omega)
    exact ⟨t₁, .refl⟩

/-- What a branch leaves known is right after it, and so is less. -/
theorem ofBranch {exec : Valuation → Exec Leave}
    (h : act.Runs im sc Γ deadline start site.branch locals locals known known' a b exec) :
    act.Runs im sc Γ deadline start site locals locals known known' a b exec := by
  intro W env S t hready hknows
  exact (h W env S t hready hknows).weaken fun _ htracks => ⟨htracks.knows, htracks.keeps⟩

/-- Less may be known afterwards. -/
theorem forget {exec : Valuation → Exec Leave}
    (h : act.Runs im sc Γ deadline start site locals locals known known' a b exec)
    (hforgets : Γ.Forgets (Γ.params ++ locals) known' known'') :
    act.Runs im sc Γ deadline start site locals locals known known'' a b exec := by
  intro W env S t hready hknows
  exact (h W env S t hready hknows).weaken fun _ htracks => htracks.forget hforgets

/-- More may be known before. -/
theorem ofForgotten {exec : Valuation → Exec Leave}
    (h : act.Runs im sc Γ deadline start site locals locals' known' known'' a b exec)
    (hforgets : Γ.Forgets (Γ.params ++ locals) known known') :
    act.Runs im sc Γ deadline start site locals locals' known known'' a b exec := by
  intro W env S t hready hknows
  exact h W env S t hready ((Site.Tracks.refl hknows).forget hforgets).knows

/-- A jump at the end leads elsewhere. -/
theorem jump {exec : Valuation → Exec Leave}
    (h : act.Runs im sc Γ deadline start site locals locals' known known' a b exec)
    (hjump : im.Holds b (.jump c)) (hfits : c < 0x80000000) :
    act.Runs im sc Γ deadline start site locals locals' known known' a c exec := by
  intro W env S t hready hknows
  exact (h W env S t hready hknows).proceed fun _ _ _ htracks => ⟨htracks, _, hjump.reach_jump hfits⟩

end Activation.Runs

namespace Follows

/-- A loop that is entered with its test, whose rounds are known to follow. -/
theorem enterLoop {vars : List SymbolId} {W : HeapTyping} {env : Valuation} {S : Store} {t start' : Nat}
    {cond : Valuation → Exec Bool} {round : Valuation → Exec Leave} {Q : Valuation → Prop}
    (hready : sc.Ready Γ vars start W env S t)
    (htest : Follows im.fetch deadline t (act.machine locals env S [] a) (cond env S)
      fun goesOn S' _ m' => m' = act.machine locals env S' [] (if goesOn then start' else c))
    (hsound : Sound Γ.sig W (cond env) fun _ _ => True) (hQ : Q env)
    (hrounds : ∀ count S' t₁ W', deadline ≤ t₁ + count → sc.Ready Γ vars start W' env S' t₁ →
      Follows im.fetch deadline t₁ (act.machine locals env S' [] start')
        ((round env).followedBy (loop cond round count) S') (Leave.Lands act locals c Q))
    {count : Nat} (henough : deadline < t + count) :
    Follows im.fetch deadline t (act.machine locals env S [] a) (loop cond round count env S)
      (Leave.Lands act locals c Q) := by
  cases count with
  | zero => exact ⟨t, _, .refl, by omega, rfl⟩
  | succ count =>
    rw [loop]
    refine htest.bindReady hready hsound fun goesOn S' t₁ m₁ W' hle _ hready' _ hm₁ => ?_
    subst hm₁
    cases goesOn with
    | false => exact .pure ⟨rfl, hQ⟩
    | true => exact hrounds count S' t₁ W' (by omega) hready'

end Follows

/-- In a loop, nothing is relied on that the rounds could change. -/
theorem Site.knows_of_loop {vars : List SymbolId} {env : Valuation} (hloop : site.inLoop = true) :
    Γ.Knows vars env (site.relies known) := by
  rw [Site.relies_loop hloop]
  exact Context.knows_empty

/-- The variables in force that are known have the values that they had. -/
def Valuation.Keeps (vars : List SymbolId) (known : Dict SymbolId Word) (env env' : Valuation) :
    Prop :=
  ∀ x ∈ vars, ∀ word, known.get? x = some word → env' x = env x

/-- After a loop, what is still known is right if the rounds kept it. -/
theorem Activation.Runs.ofLoop {exec : Valuation → Exec Leave}
    (h : act.Runs im sc Γ deadline start site.loop locals locals known known' a b exec)
    (hforgets : Γ.Forgets (Γ.params ++ locals) known known') :
    act.Runs im sc Γ deadline start site locals locals known known' a b exec := by
  intro W env S t hready hknows
  refine (h W env S t hready (Site.knows_of_loop rfl)).weaken fun env' htracks => ?_
  have hkept := htracks.keeps rfl
  refine ⟨Site.knows_relies fun hloop => ?_, fun _ => hkept⟩
  rw [Site.relies_straight hloop] at hknows
  exact hknows.forget hforgets hkept

/-- The rounds of a loop leave the variables that are known afterwards as they were. -/
theorem BackCode.follows_rounds {cond : Option Expr} {next : Int} {round : Valuation → Exec Leave}
    (hhost : act.Hosts im sc Γ deadline start) (hframe : im.Frame Γ.params locals next)
    (hloop : site.inLoop = true) (hfits : c < 0x80000000) (hstart : a < 0x80000000)
    (hround : act.Runs im sc Γ deadline start site locals locals known known' a b round)
    (hsound : ∀ (W : HeapTyping) env, sc.Typed Γ W → env.Typed Γ.sig W (Γ.params ++ locals) →
      Sound Γ.sig W (round env) fun W' => Leave.Typed Γ.sig W' (Γ.params ++ locals) Γ.returnTy)
    (hcond : ∀ expr ∈ cond, expr.HasType Γ (Γ.params ++ locals) .boolean)
    (hback : BackCode im (site.fold known') cond b c a) {env : Valuation} {S : Store}
    {W : HeapTyping} {t count : Nat} (henough : deadline ≤ t + count)
    (hready : sc.Ready Γ (Γ.params ++ locals) start W env S t) :
    Follows im.fetch deadline t (act.machine locals env S [] a)
      ((round env).followedBy (loop (Stmt.goesOn sc cond) round count) S)
      (Leave.Lands act locals c (Valuation.Keeps (Γ.params ++ locals) known' env)) := by
  refine Follows.rounds (b := b) (fun env₁ S t₁ W _ hready hkept => ?_) hsound
    (fun env₁ S t₁ W _ hready _ => ?_) (fun W env hscene henv => Stmt.sound_goesOn hscene henv hcond)
    count (Nat.le_refl t) hready (fun _ _ _ _ => rfl) henough
  · refine (hround W env₁ S t₁ hready (Site.knows_of_loop hloop)).weaken
      fun env₂ htracks x hmem word hget => ?_
    rw [htracks.keeps hloop x hmem word hget, hkept x hmem word hget]
  · exact hback.follows hhost hframe (site.faithful hready.scene.sig (Site.knows_of_loop hloop)) hready
      hfits hstart hcond

/-- A value that is known is pushed by a literal. -/
theorem Expr.ValueCode.evaluates_known {next : Int} {fold : Folding} {expr : Expr} {word : Word}
    (hhost : act.Hosts im sc Γ deadline start) (hframe : im.Frame Γ.params locals next)
    (hfits : b < 0x80000000) (hvalue : expr.ValueCode im fold (.known word) a b)
    (hliteral : im.Holds b (.literal word.toInt)) :
    act.Evaluates im sc Γ deadline start locals fold expr (.known word) a (b + 1) := by
  intro W env S t temps hready hfold htyped
  refine (hvalue.follows hhost hframe hfold hready hfits htyped).next ?_
  rintro d S' t₁ _ - ⟨rfl, rfl⟩
  rw [Value.left, List.append_nil]
  exact ⟨_, _, hliteral.reach_literal, rfl, rfl⟩

/-- A value that is not known is on the stack already. -/
theorem Expr.ValueCode.evaluates {next : Int} {fold : Folding} {expr : Expr}
    (hhost : act.Hosts im sc Γ deadline start) (hframe : im.Frame Γ.params locals next)
    (hfits : b < 0x80000000) (hvalue : expr.ValueCode im fold .onStack a b) :
    act.Evaluates im sc Γ deadline start locals fold expr .onStack a b :=
  fun _ _ _ _ _ hready hfold htyped => hvalue.follows hhost hframe hfold hready hfits htyped

/-- A method returns with its result, if it has one. -/
theorem Image.Holds.reach_result {env : Valuation} {S : Store} {t : Nat} {results : Int}
    (result : Option Datum) (hresults : results = result.toList.length)
    (h : im.Holds a (.returnWith results act.params.length)) :
    Reaches im.fetch t (act.machine locals env S result.toList a) (t + 1)
      (act.resumed S result.toList) := by
  rw [hresults] at h
  change Reaches im.fetch t (act.machine locals env S ([] ++ result.toList) a) _ _
  exact h.reach_return

namespace Stmt

/-- The code of a declaration makes room for the variable by leaving its value on the stack. -/
theorem runs_varDecl {span : Span} {var : LocalDef} {init : Expr} {x : SymbolId} {value : Value}
    (hhost : act.Hosts im sc Γ deadline start) (hbound : var.binding = some x)
    (hinit : act.Evaluates im sc Γ deadline start locals (site.fold known) init value a b)
    (htyped : (Stmt.varDecl span var init).WellTyped Γ locals) :
    act.Runs im sc Γ deadline start site locals (locals ++ (Stmt.varDecl span var init).binds)
      known (value.record x known) a b ((Stmt.varDecl span var init).exec sc) := by
  cases htyped with
  | varDecl hbound' hkind hfresh hinit' hfits =>
    obtain rfl := Option.some.inj (hbound'.symm.trans hbound)
    intro W env S t hready hknows
    have hvoid := hfits.ne_void (hready.scene.voidFree.symbols _ _ hkind rfl)
    rw [exec, binds, hbound]
    refine (hinit W env S t [] hready (site.faithful hready.scene.sig hknows)
      ⟨_, hinit', hvoid⟩).bind fun d S' t₁ m₁ _ hpost => ?_
    obtain ⟨hd, rfl⟩ := hpost
    refine .pure ⟨(Activation.machine_declare (hhost.params ▸ hfresh)).symm, ?_⟩
    refine .declare hknows hfresh hkind hd fun y hmem hne => ?_
    simpa [hne] using hmem

/-- The code of an assignment changes its target and nothing else. -/
theorem runs_assign {span : Span} {target : Reference} {expr : Expr} {destination : Destination}
    {value : Value} {next : Int} (hhost : act.Hosts im sc Γ deadline start)
    (hframe : im.Frame Γ.params locals next)
    (htarget : target.DestinationCode im destination a b)
    (hvalue : act.Evaluates im sc Γ deadline start locals (site.fold known) expr value b c)
    (hstore : StoreCode im site target value known destination c known')
    (htyped : (Stmt.assign span target expr).WellTyped Γ locals) :
    act.Runs im sc Γ deadline start site locals (locals ++ (Stmt.assign span target expr).binds)
      known known' a (c + 1) ((Stmt.assign span target expr).exec sc) := by
  cases htyped with
  | assign htarget' _ hvalue' hfits =>
    intro W env S t hready hknows
    have hvoid := hfits.ne_void (htarget'.avoidsVoid hready.scene.voidFree)
    have hfold := site.faithful hready.scene.sig hknows
    simp only [exec, binds, List.append_nil]
    refine (Reference.follows_assign hhost hframe hready hknows htarget' htarget
      (fun W' S' t' temps hready' => hvalue W' env S' t' temps hready' hfold ⟨_, hvalue', hvoid⟩)
      hstore).bind fun env' S' t₁ m₁ _ hpost => ?_
    exact .pure ⟨hpost.2, hpost.1⟩

/-- The code of a call for its effect drops the result, if there is one. -/
theorem runs_call {span : Span} {callee : Reference} {args : List Expr} {m method : SymbolId}
    {next : Int} {d : Nat} (hhost : act.Hosts im sc Γ deadline start)
    (hframe : im.Frame Γ.params locals next) (hfits : d < 0x80000000)
    (hcode : Expr.ArgsCode im (site.fold known) args a b) (hinvoke : callee.InvokeCode im method b c)
    (hpop : PopCode im (if (im.signature.typeOf method).isVoid then 0 else 1) c d)
    (hcallee : callee.Callee Γ (Γ.params ++ locals) m)
    (hargs : Expr.ArgsFit Γ (Γ.params ++ locals) args (Γ.sig.paramsOf m)) :
    act.Runs im sc Γ deadline start site locals locals known known a d
      ((Stmt.call span callee args).exec sc) := by
  intro W env S t hready hknows
  have hle := hinvoke.le
  have hle' := hpop.le
  have hvoid := hready.scene.voidFree.params m
  obtain ⟨hbinding, info, hkind⟩ := hcallee.kind
  rw [exec]
  refine (hcode.follows hhost hframe (site.faithful hready.scene.sig hknows) hready (by omega) hvoid
    hargs).bindReady hready (hargs.sound hready.scene hready.env hvoid)
      fun ds S₁ t₁ m₁ W₁ _ hextends₁ hready₁ hds hm₁ => ?_
  rw [hm₁]
  refine (hinvoke.follows hhost hframe hready₁ hcallee hds).bindReady hready₁
    (hready₁.scene.sound_call hbinding hkind
      (fun hstatic => hcallee.sound_evalOwner hready₁.scene hready₁.env hkind hstatic) hds)
      fun result S₂ t₂ m₂ W₂ _ _ _ hresult hm₂ => ?_
  rw [hm₂]
  obtain rfl : m = method := by
    cases hinvoke with
    | static hbound => exact Option.some.inj (hbinding.symm.trans hbound)
    | «instance» hbound => exact Option.some.inj (hbinding.symm.trans hbound)
  rw [← hhost.sig] at hpop
  cases result with
  | none =>
    have hvoid : Γ.sig.typeOf m = .void := hresult
    rw [hvoid] at hpop
    cases hpop with
    | some hcount => exact absurd hcount (by decide)
    | none => exact .pure ⟨rfl, .refl hknows⟩
  | some v =>
    have hvoid : (Γ.sig.typeOf m).isVoid = false := Bool.eq_false_iff.2 (mt Ty.isVoid_iff.1 hresult.1)
    rw [hvoid] at hpop
    cases hpop with
    | some _ hpop => exact .after (hpop.reach_pop rfl) (.pure ⟨rfl, .refl hknows⟩)
    | none hcount => exact absurd hcount (by decide)

/-- The code of an array store evaluates the array, the index and the value, in this order. -/
theorem runs_indexAssign {span : Span} {target : Reference} {subscript value : Expr} {next : Int}
    {d : Nat} (hhost : act.Hosts im sc Γ deadline start)
    (hframe : im.Frame Γ.params locals next) (hfits : d < 0x80000000)
    (htarget : target.PushCode im a b) (hsubscript : subscript.PushCode im (site.fold known) b c)
    (hvalue : value.PushCode im (site.fold known) c d) (hstore : im.Holds d (.primitive .arrayupd))
    (htyped : (Stmt.indexAssign span target subscript value).WellTyped Γ locals) :
    act.Runs im sc Γ deadline start site locals locals known known a (d + 1)
      ((Stmt.indexAssign span target subscript value).exec sc) := by
  have hle := hvalue.le
  cases htyped with
  | indexAssign htarget' hsubscript' hvalue' hfits' =>
    intro W env S t hready hknows
    have hvoid := hfits'.ne_void (by
      simpa [Ty.avoidsVoid] using htarget'.avoidsVoid hready.scene.voidFree)
    have hfold := site.faithful hready.scene.sig hknows
    rw [exec]
    refine (htarget.follows hhost hframe hready htarget').bindReady hready
      (htarget'.sound hready.scene hready.env) fun array S₁ t₁ m₁ W₁ _ _ hready₁ _ hm₁ => ?_
    rw [hm₁]
    refine (hsubscript.follows hhost hframe hfold hready₁ (by omega)
      ⟨_, hsubscript', Ty.int_ne_void⟩).bindReady hready₁
        (hsubscript'.sound hready₁.scene hready₁.env Ty.int_ne_void)
          fun index S₂ t₂ m₂ W₂ _ _ hready₂ _ hm₂ => ?_
    rw [hm₂]
    refine (hvalue.follows hhost hframe hfold hready₂ hfits ⟨_, hvalue', hvoid⟩).bind
      fun d S₃ t₃ m₃ _ hm₃ => ?_
    rw [hm₃, ← bind_assoc]
    refine hstore.follows_arrayupd.bind fun _ S₄ t₄ m₄ _ hm₄ => ?_
    exact .pure ⟨hm₄, .refl hknows⟩

/-- The code of a return leaves the method with the value on the stack. -/
theorem runs_returnValue {span : Span} {value : Expr} {next : Int}
    (hhost : act.Hosts im sc Γ deadline start) (hargs : site.argCount = act.params.length)
    (hframe : im.Frame Γ.params locals next) (hfits : b < 0x80000000)
    (hvalue : value.PushCode im (site.fold known) a b)
    (hreturn : im.Holds b (.returnWith 1 site.argCount))
    (htyped : (Stmt.return span (some value)).WellTyped Γ locals) :
    act.Runs im sc Γ deadline start site locals locals' known known' a c
      ((Stmt.return span (some value)).exec sc) := by
  cases htyped with
  | returnValue hvoid hvalue' hfits' =>
    intro W env S t hready hknows
    rw [exec]
    refine (hvalue.follows hhost hframe (site.faithful hready.scene.sig hknows) hready hfits
      ⟨_, hvalue', hfits'.ne_void_of_ne hvoid⟩).bind fun d S₁ t₁ m₁ _ hm₁ => ?_
    rw [hm₁]
    rw [hargs] at hreturn
    exact .after (hreturn.reach_result (some d) rfl) (.pure rfl)

/-- The code of a return without a value goes back to the caller, as the statement does. -/
theorem runs_return {span : Span} (hargs : site.argCount = act.params.length)
    (hreturn : im.Holds a (.returnWith 0 site.argCount)) :
    act.Runs im sc Γ deadline start site locals locals' known known' a c
      ((Stmt.return span none).exec sc) := by
  intro W env S t hready hknows
  rw [exec]
  rw [hargs] at hreturn
  exact .after (hreturn.reach_result none rfl) (.pure rfl)

/-- There is no code for a test whose outcome is known, only for the branch that is taken. -/
theorem runs_ifKnown {span : Span} {cond : Expr} {onTrue : Stmt} {onFalse : Option Stmt}
    {outcome : Bool} {b' target : Nat}
    (hcond : cond.CondCode im (site.fold known) false (some outcome) a b' target)
    (htyped : cond.HasType Γ (Γ.params ++ locals) .boolean)
    (htaken : act.Runs im sc Γ deadline start site locals locals known known' a b
      fun env => if outcome then onTrue.exec sc env else execOption sc onFalse env) :
    act.Runs im sc Γ deadline start site locals locals known known' a b
      ((Stmt.ifElse span cond onTrue onFalse).exec sc) := by
  intro W env S t hready hknows
  rw [exec, hcond.eval_of_known hready (site.faithful hready.scene.sig hknows) rfl htyped, pure_bind,
    Datum.holds_ofBool]
  exact htaken W env S t hready hknows

/-- The test of a branch leads to one of two pieces of code, which end at the same place. -/
theorem runs_ifElse {span : Span} {cond : Expr} {onTrue : Stmt} {onFalse : Option Stmt} {next : Int}
    {d : Nat} (hhost : act.Hosts im sc Γ deadline start) (hframe : im.Frame Γ.params locals next)
    (hfits : b < 0x80000000) (hfits' : c < 0x80000000)
    (hcond : cond.CondCode im (site.fold known) false none a b c)
    (htyped : cond.HasType Γ (Γ.params ++ locals) .boolean)
    (hTrue : act.Runs im sc Γ deadline start site locals locals known known' b d (onTrue.exec sc))
    (hFalse : act.Runs im sc Γ deadline start site locals locals known known' c d
      (execOption sc onFalse)) :
    act.Runs im sc Γ deadline start site locals locals known known' a d
      ((Stmt.ifElse span cond onTrue onFalse).exec sc) := by
  intro W env S t hready hknows
  rw [exec]
  refine (hcond.follows hhost hframe (site.faithful hready.scene.sig hknows) hready hfits hfits' rfl
    htyped).bindReady hready (htyped.sound hready.scene hready.env Ty.boolean_ne_void) ?_
  rintro _ S₁ t₁ _ W₁ - - hready₁ - ⟨o, rfl, -, rfl⟩
  rw [Datum.holds_ofBool]
  cases o with
  | false => exact hFalse W₁ env S₁ t₁ hready₁ hknows
  | true => exact hTrue W₁ env S₁ t₁ hready₁ hknows

/-- A loop that updates nothing after its rounds. -/
theorem followedBy_none (round : Exec Leave) : round.followedBy (execOption sc none) = round := by
  unfold Exec.followedBy
  refine (bind_congr fun leave => ?_).trans (bind_pure round)
  cases leave <;> rfl

/-- What comes before the rounds of a loop may bring a variable into force. -/
theorem sound_init {init : Option Stmt} {W : HeapTyping} {env : Valuation} (hscene : sc.Typed Γ W)
    (henv : env.Typed Γ.sig W (Γ.params ++ locals)) (hinit : ∀ stmt ∈ init, stmt.WellTyped Γ locals)
    (hplain : optionPlainUpdates init = true) :
    Sound Γ.sig W (execOption sc init env)
      fun W' => Leave.Typed Γ.sig W' (Γ.params ++ (locals ++ optionBinds init)) Γ.returnTy := by
  cases init with
  | none => exact sound_execOption (fun _ => by simpa [optionBinds] using henv) (by simp)
  | some stmt => exact (hinit stmt rfl).sound hscene henv hplain

/-- A round of a loop leaves the variables in force typed. -/
theorem sound_round {body : Stmt} {update : Option Stmt} {W : HeapTyping} {env : Valuation}
    (hscene : sc.Typed Γ W) (henv : env.Typed Γ.sig W (Γ.params ++ locals))
    (hbody : body.BranchWellTyped Γ locals) (hplain : body.plainUpdates = true)
    (hupdate : ∀ stmt ∈ update, stmt.WellTyped Γ locals)
    (hdeclares : ∀ stmt ∈ update, stmt.isVarDecl = false) (hplain' : optionPlainUpdates update = true) :
    Sound Γ.sig W ((body.exec sc env).followedBy (execOption sc update))
      fun W' => Leave.Typed Γ.sig W' (Γ.params ++ locals) Γ.returnTy := by
  refine (hbody.sound hscene henv hplain).followedBy fun W' env' hle henv' => ?_
  refine sound_execOption (fun _ => henv') fun stmt hmem => ?_
  simpa [binds_of_plain (hdeclares stmt hmem)] using
    (hupdate stmt hmem).sound (hscene.mono hle) henv' (plainUpdates_of_mem hplain' hmem)

/-- A round of a loop: its body, and what updates the variables for the next one. -/
theorem runs_round {body : Stmt} {update : Option Stmt} (hbody : body.BranchWellTyped Γ locals)
    (hplain : body.plainUpdates = true) (hdeclares : ∀ stmt ∈ update, stmt.isVarDecl = false)
    (hfirst : act.Runs im sc Γ deadline start site locals (locals ++ body.binds) known known' a b
      (body.exec sc))
    (hrest : act.Runs im sc Γ deadline start site locals (locals ++ optionBinds update) known' known'' b c
      (execOption sc update))
    (hforgets : Γ.Forgets (Γ.params ++ locals) known' known'') :
    act.Runs im sc Γ deadline start site locals locals known known'' a c
      fun env => (body.exec sc env).followedBy (execOption sc update) := by
  rw [optionBinds_of_plain hdeclares, List.append_nil] at hrest
  have hbinds := binds_of_plain hbody.plain
  rw [hbinds] at hfirst
  have hsame := List.append_nil locals
  refine hfirst.followedBy (fun W env hscene henv => ?_) (hsame.symm ▸ hrest)
    fun _ => hsame.symm ▸ hforgets
  rw [← hbinds]
  exact hbody.typed.sound hscene henv hplain

/-- A loop whose rounds run, and whose test leads to them. -/
theorem runs_loop {cond : Option Expr} {body : Stmt} {update : Option Stmt} {next : Int} {d e : Nat}
    (hhost : act.Hosts im sc Γ deadline start) (hframe : im.Frame Γ.params locals next)
    (hloop : site.inLoop = true) (hfits : c < 0x80000000) (hstart : d < 0x80000000)
    (hbody : body.BranchWellTyped Γ locals) (hplain : body.plainUpdates = true)
    (hupdate : ∀ stmt ∈ update, stmt.WellTyped Γ locals)
    (hdeclares : ∀ stmt ∈ update, stmt.isVarDecl = false) (hplain' : optionPlainUpdates update = true)
    (hfirst : act.Runs im sc Γ deadline start site locals (locals ++ body.binds) known known' d e
      (body.exec sc))
    (hrest : act.Runs im sc Γ deadline start site locals (locals ++ optionBinds update) known' known'' e b
      (execOption sc update))
    (hforgets : Γ.Forgets (Γ.params ++ locals) known' known'')
    (hcond : ∀ expr ∈ cond, expr.HasType Γ (Γ.params ++ locals) .boolean)
    (hback : BackCode im (site.fold known'') cond b c d)
    (htest : ∀ (W : HeapTyping) env S t, sc.Ready Γ (Γ.params ++ locals) start W env S t →
      Follows im.fetch deadline t (act.machine locals env S [] a) (goesOn sc cond env S)
        fun goesOn S' _ m' => m' = act.machine locals env S' [] (if goesOn then d else c)) :
    act.Runs im sc Γ deadline start site locals locals known known'' a c
      (loop (goesOn sc cond) (fun env => (body.exec sc env).followedBy (execOption sc update))
        sc.rounds) := by
  intro W env S t hready _
  have henough := hhost.enough
  have hstarted := hready.started
  have hround := runs_round hbody hplain hdeclares hfirst hrest hforgets
  have hfollows : Follows im.fetch deadline t (act.machine locals env S [] a)
      (loop (goesOn sc cond) (fun env => (body.exec sc env).followedBy (execOption sc update))
        sc.rounds env S)
      (Leave.Lands act locals c (Valuation.Keeps (Γ.params ++ locals) known'' env)) := by
    refine Follows.enterLoop hready (htest W env S t hready) (sound_goesOn hready.scene hready.env hcond)
      (fun _ _ _ _ => rfl) (fun count S₁ t₁ W₁ hlate hready₁ => ?_) (by omega)
    exact hback.follows_rounds hhost hframe hloop hfits hstart hround
      (fun W env hscene henv => sound_round hscene henv hbody hplain hupdate hdeclares hplain') hcond
      hlate hready₁
  exact hfollows.weaken fun env' hkept => ⟨Site.knows_of_loop hloop, fun _ => hkept⟩

mutual

/-- The code of a statement does what its execution does. -/
theorem Code.runs {site : Site} {stmt : Stmt} {locals : List SymbolId} {φ φ' : Tracked} {a b : Nat}
    (hhost : act.Hosts im sc Γ deadline start) (hargs : site.argCount = act.params.length)
    (hfits : b < 0x80000000) :
    stmt.Code im site φ a b φ' → stmt.WellTyped Γ locals → stmt.plainUpdates = true →
      im.Frame Γ.params locals φ.next →
        act.Runs im sc Γ deadline start site locals (locals ++ stmt.binds) φ.known φ'.known a b
          (stmt.exec sc)
  | .block hstmts hpop => by
    intro htyped hplain hframe
    have hle := hpop.le
    cases htyped with
    | block hstmts' =>
      obtain ⟨more, hmore, hruns⟩ :=
        hstmts.runs hhost hargs (by omega) hstmts' hplain hframe
      simp only [binds, List.append_nil]
      exact hruns.release hframe hmore hpop
  | .varDeclKnown hbound _ hinit hliteral => by
    intro htyped _ hframe
    exact runs_varDecl hhost hbound (hinit.evaluates_known hhost hframe (by omega) hliteral) htyped
  | .varDecl hbound _ hinit => by
    intro htyped _ hframe
    exact runs_varDecl hhost hbound (hinit.evaluates hhost hframe hfits) htyped
  | .assignKnown htarget hvalue hliteral hstore => by
    intro htyped _ hframe
    exact runs_assign hhost hframe htarget
      (hvalue.evaluates_known hhost hframe (by omega) hliteral) hstore htyped
  | .assign htarget hvalue hstore => by
    intro htyped _ hframe
    exact runs_assign hhost hframe htarget (hvalue.evaluates hhost hframe (by omega)) hstore htyped
  | .indexAssign htarget hsubscript hvalue hstore => by
    intro htyped _ hframe
    simp only [binds, List.append_nil]
    exact runs_indexAssign hhost hframe (by omega) htarget hsubscript hvalue hstore htyped
  | .call hargs' hinvoke hpop => by
    intro htyped _ hframe
    cases htyped with
    | call hcallee hfit =>
      simp only [binds, List.append_nil]
      exact runs_call hhost hframe hfits hargs' hinvoke hpop hcallee hfit
  | .returnValue hvalue hreturn => by
    intro htyped _ hframe
    exact runs_returnValue hhost hargs hframe (by omega) hvalue hreturn htyped
  | .return hreturn => fun _ _ _ => runs_return hargs hreturn
  | .ifTrue hcond hTrue => by
    intro htyped hplain hframe
    obtain ⟨hplain, -⟩ := Bool.and_eq_true_iff.1 (by simpa [plainUpdates] using hplain)
    cases htyped with
    | ifElse hcond' hTrue' _ =>
      have hruns := hTrue.runs hhost hargs hfits hTrue'.typed hplain hframe
      rw [binds_of_plain hTrue'.plain, List.append_nil] at hruns
      simp only [binds, List.append_nil]
      exact runs_ifKnown hcond hcond' hruns
  | .ifFalse hcond hFalse => by
    intro htyped hplain hframe
    obtain ⟨-, hplain⟩ := Bool.and_eq_true_iff.1 (by simpa [plainUpdates] using hplain)
    cases htyped with
    | ifElse hcond' _ hFalse' =>
      have hruns := hFalse.runs hhost hargs hfits (fun stmt hmem => (hFalse' stmt hmem).typed)
        hplain hframe
      rw [optionBinds_of_plain fun stmt hmem => (hFalse' stmt hmem).plain, List.append_nil] at hruns
      simp only [binds, List.append_nil]
      exact runs_ifKnown hcond hcond' hruns
  | .ifOnly hcond hTrue => by
    intro htyped hplain hframe
    have hle := hTrue.le
    have hbranch : site.branch.argCount = act.params.length := hargs
    obtain ⟨hplain, -⟩ := Bool.and_eq_true_iff.1 (by simpa [plainUpdates] using hplain)
    cases htyped with
    | ifElse hcond' hTrue' _ =>
      have hruns := hTrue.runs hhost hbranch hfits hTrue'.typed hplain hframe
      rw [binds_of_plain hTrue'.plain, List.append_nil] at hruns
      simp only [binds, List.append_nil]
      exact runs_ifElse hhost hframe (by omega) hfits hcond hcond' hruns.ofBranch
        (Activation.Runs.refl.forget (hTrue.forgets rfl hTrue'.typed))
  | .ifElse hcond hTrue hdone hFalse => by
    intro htyped hplain hframe
    have hle := hTrue.le
    have hle' := hFalse.le
    have hbranch : site.branch.argCount = act.params.length := hargs
    obtain ⟨hplain, hplain'⟩ := Bool.and_eq_true_iff.1 (by simpa [plainUpdates] using hplain)
    cases htyped with
    | ifElse hcond' hTrue' hFalse' =>
      have hFalse' := hFalse' _ rfl
      have hruns := hTrue.runs hhost hbranch (by omega) hTrue'.typed hplain hframe
      have hframe' := hTrue.frame_branch hhost.sig hTrue' hplain hframe
      rw [binds_of_plain hTrue'.plain, List.append_nil] at hruns
      have hruns' := hFalse.runs hhost hbranch hfits hFalse'.typed hplain' hframe'
      rw [binds_of_plain hFalse'.plain, List.append_nil] at hruns'
      simp only [binds, List.append_nil]
      -- The code of one branch is generated with what is known after the other, which is less.
      exact runs_ifElse hhost hframe (by omega) (by omega) hcond hcond'
        ((hruns.ofBranch.forget (hFalse.forgets rfl hFalse'.typed)).jump hdone hfits)
        (hruns'.ofBranch.ofForgotten (hTrue.forgets rfl hTrue'.typed))
  | @Code.while _ _ _ cond body _ _ _ _ hloop => by
    intro htyped hplain hframe
    have hrounds : site.loop.argCount = act.params.length := hargs
    cases htyped with
    | «while» hcond hbody =>
      have hcond : ∀ expr ∈ some cond, expr.HasType Γ (Γ.params ++ locals) .boolean := by simpa using hcond
      have hplain : body.plainUpdates = true := by simpa [plainUpdates] using hplain
      have hruns := hloop.runs hhost hrounds hfits rfl hplain
        (rfl : optionPlainUpdates none = true) (by simp) hcond hbody (by simp) hframe
      simp only [followedBy_none] at hruns
      have hbody : body.WellTyped Γ (locals ++ []) := by simpa using hbody.typed
      have hforgets := hloop.forgets (by simp [Site.loop]) hbody (by simp)
      simp only [binds, List.append_nil]
      exact hruns.ofLoop hforgets
  | .for hinit hloop hpop => by
    intro htyped hplain hframe
    have hle := hloop.le
    have hle' := hpop.le
    have hrounds : site.loop.argCount = act.params.length := hargs
    obtain ⟨hplain₁, hdeclares, hplain₂, hplain₃⟩ := plain_of_plainUpdates hplain
    cases htyped with
    | «for» hinit' hcond hupdate hbody =>
      have hforgets := hloop.forgets (by simp [Site.loop]) hbody.typed hupdate
      rw [optionBinds_of_plain hdeclares, List.append_nil] at hbody
      have hframe' := hinit.frame_after hhost.sig hinit' hplain₁ hframe
      have hframe'' := hloop.frame_after hhost.sig hplain₃ hplain₂ hdeclares hbody hupdate hframe'
      have hruns := hinit.runs hhost hargs (by omega) hinit' hplain₁ hframe
      have hruns' := hloop.runs hhost hrounds (by omega) rfl hplain₃ hplain₂
        hdeclares hcond hbody hupdate hframe'
      rw [hframe'.next_unique hframe''] at hpop
      simp only [binds, List.append_nil]
      exact (hruns.followedBy (fun W env hscene henv => sound_init hscene henv hinit' hplain₁)
        (hruns'.ofLoop hforgets) fun _ => hforgets).release hframe hframe' hpop

/-- The code of a loop does what the loop does. -/
theorem LoopCode.runs {site : Site} {cond : Option Expr} {body : Stmt} {update : Option Stmt}
    {locals : List SymbolId} {φ φ' : Tracked} {a b : Nat}
    (hhost : act.Hosts im sc Γ deadline start) (hargs : site.argCount = act.params.length)
    (hfits : b < 0x80000000)
    (hloop : site.inLoop = true) (hplain : body.plainUpdates = true)
    (hplain' : optionPlainUpdates update = true)
    (hdeclares : ∀ stmt ∈ update, stmt.isVarDecl = false) :
    LoopCode im site cond body update φ a b φ' →
      (∀ expr ∈ cond, expr.HasType Γ (Γ.params ++ locals) .boolean) →
        body.BranchWellTyped Γ locals → (∀ stmt ∈ update, stmt.WellTyped Γ locals) →
          im.Frame Γ.params locals φ.next →
            act.Runs im sc Γ deadline start site locals locals φ.known φ'.known a b
              (loop (goesOn sc cond)
                (fun env => (body.exec sc env).followedBy (execOption sc update)) sc.rounds)
  | .skip htest => by
    intro hcond _ _ _ W env S t hready hknows
    have henough := hhost.enough
    have hstarted := hready.started
    cases hcount : sc.rounds with
    | zero => exact ⟨t, _, .refl, by omega, rfl⟩
    | succ count =>
      rw [loop, htest.goesOn_of_known hready (site.faithful hready.scene.sig hknows) hcond]
      exact .pure ⟨rfl, .refl hknows⟩
  | .forever htest hbody hupdate hback => by
    intro hcond hbody' hupdate' hframe
    have hle := hbody.le
    have hle' := hupdate.le
    have hle'' := hback.le
    have hframe' := hbody.frame_branch hhost.sig hbody' hplain hframe
    refine runs_loop hhost hframe hloop hfits (by omega) hbody' hplain hupdate' hdeclares hplain'
      (hbody.runs hhost hargs (by omega) hbody'.typed hplain hframe)
      (hupdate.runs hhost hargs (by omega) hupdate' hplain' hframe')
      (hupdate.forgets (by simp [hloop]) hupdate') hcond hback fun W env S t hready => ?_
    rw [htest.goesOn_of_known hready (site.faithful hready.scene.sig (Site.knows_of_loop hloop)) hcond]
    exact .pure rfl
  | .test htest hbody hupdate hback => by
    intro hcond hbody' hupdate' hframe
    have hle := hbody.le
    have hle' := hupdate.le
    have hle'' := hback.le
    have hframe' := hbody.frame_branch hhost.sig hbody' hplain hframe
    refine runs_loop hhost hframe hloop hfits (by omega) hbody' hplain hupdate' hdeclares hplain'
      (hbody.runs hhost hargs (by omega) hbody'.typed hplain hframe)
      (hupdate.runs hhost hargs (by omega) hupdate' hplain' hframe')
      (hupdate.forgets (by simp [hloop]) hupdate') hcond hback fun W env S t hready => ?_
    refine (htest.follows hhost hframe (site.faithful hready.scene.sig (Site.knows_of_loop hloop)) hready
      (by omega) hfits hcond).mono ?_
    rintro goesOn S' t' _ - ⟨-, rfl⟩
    cases goesOn <;> rfl

/-- The code of a statement that may be left out runs as the statement is executed. -/
theorem OptionCode.runs {site : Site} {stmt : Option Stmt} {locals : List SymbolId} {φ φ' : Tracked}
    {a b : Nat} (hhost : act.Hosts im sc Γ deadline start)
    (hargs : site.argCount = act.params.length) (hfits : b < 0x80000000) :
    OptionCode im site stmt φ a b φ' → (∀ s ∈ stmt, s.WellTyped Γ locals) →
      optionPlainUpdates stmt = true → im.Frame Γ.params locals φ.next →
        act.Runs im sc Γ deadline start site locals (locals ++ optionBinds stmt) φ.known φ'.known a b
          (execOption sc stmt)
  | .none => by
    intro _ _ _
    simp only [optionBinds, Option.map_none, Option.getD_none, List.append_nil]
    exact .refl
  | .some hstmt => by
    intro htyped hplain hframe
    exact hstmt.runs hhost hargs hfits (htyped _ rfl) hplain hframe

/-- The code of a list of statements runs as the statements are executed, in a frame that grows by
    the variables that they declare. -/
theorem ListCode.runs {site : Site} {stmts : List Stmt} {locals : List SymbolId} {φ φ' : Tracked}
    {a b : Nat} (hhost : act.Hosts im sc Γ deadline start)
    (hargs : site.argCount = act.params.length) (hfits : b < 0x80000000) :
    ListCode im site stmts φ a b φ' → ListWellTyped Γ locals stmts →
      allPlainUpdates stmts = true → im.Frame Γ.params locals φ.next →
        ∃ more, im.Frame Γ.params (locals ++ more) φ'.next ∧
          act.Runs im sc Γ deadline start site locals (locals ++ more) φ.known φ'.known a b
            (execAll sc stmts)
  | .nil => by
    intro _ _ hframe
    refine ⟨[], by simpa using hframe, ?_⟩
    rw [List.append_nil]
    exact .refl
  | .cons hstmt hrest => by
    intro htyped hplain hframe
    have hle := hrest.le
    cases htyped with
    | cons hstmt' hrest' =>
      obtain ⟨hplain, hplain'⟩ := Bool.and_eq_true_iff.1 (by simpa [allPlainUpdates] using hplain)
      have hframe' := hstmt.frame_after hhost.sig hstmt' hplain hframe
      have hruns := hstmt.runs hhost hargs (by omega) hstmt' hplain hframe
      obtain ⟨more, hmore, hruns'⟩ := hrest.runs hhost hargs hfits hrest' hplain' hframe'
      refine ⟨_ ++ more, by rwa [← List.append_assoc], ?_⟩
      rw [← List.append_assoc]
      exact hruns.followedBy (fun W env hscene henv => hstmt'.sound hscene henv hplain) hruns'
        fun hloop => hrest.forgets (by simp [hloop]) hrest'

end

end Stmt

end SmallJava
