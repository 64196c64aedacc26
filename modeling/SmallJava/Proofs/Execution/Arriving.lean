import SmallJava.Proofs.Codegen.Stations
import SmallJava.Proofs.Execution.Learning
import SmallJava.Proofs.Execution.Pushing

namespace SmallJava

open Gen Exec

/-- What follows a statement follows what that statement goes on with. -/
theorem Exec.followedBy_of_eq {first part : Exec Leave} {rest : Leave → Exec Leave}
    {next : Valuation → Exec Leave} {S S₁ : Store} (h : first S = (part >>= rest) S₁) :
    first.followedBy next S = (part >>= fun leave => (rest leave).followedBy next) S₁ := by
  unfold followedBy
  rw [← bind_assoc]
  change EStateM.bind first _ S = EStateM.bind (part >>= rest) _ S₁
  unfold EStateM.bind
  rw [h]

namespace Stmt

mutual

/-- Executes a statement until control is at the part at the end of the way, if it gets there. -/
def execTo (sc : Scene) : Stmt → List Turn → Valuation → Exec (Option (Stmt × Valuation))
  | stmt, [], env => pure (some (stmt, env))
  | block _ stmts, .nth i :: way, env => execAllTo sc stmts i way env
  | ifElse _ cond onTrue _, .onTrue :: way, env => do
    if (← cond.eval sc env).holds then onTrue.execTo sc way env else pure none
  | ifElse _ cond _ (some onFalse), .onFalse :: way, env => do
    if (← cond.eval sc env).holds then pure none else onFalse.execTo sc way env
  | .for _ (some init) _ _ _, .init :: way, env => init.execTo sc way env
  | _, _, _ => pure none

/-- The same for the part at the end of a way from one of the statements. -/
def execAllTo (sc : Scene) : List Stmt → Nat → List Turn → Valuation →
    Exec (Option (Stmt × Valuation))
  | [], _, _, _ => pure none
  | stmt :: _, 0, way, env => stmt.execTo sc way env
  | stmt :: rest, i + 1, way, env => do
    match ← stmt.exec sc env with
    | .next env' => execAllTo sc rest i way env'
    | .return _ => pure none

end

mutual

/-- An execution that gets to a part of the statement executes that, and goes on in a way that
    depends on nothing but how the part ends. -/
theorem exec_of_execTo (sc : Scene) : (stmt : Stmt) → (way : List Turn) →
    ∃ rest : Leave → Exec Leave, ∀ ⦃env S part env₁ S₁⦄,
      stmt.execTo sc way env S = .ok (some (part, env₁)) S₁ →
        stmt.exec sc env S = (part.exec sc env₁ >>= rest) S₁
  | stmt, [] => by
    refine ⟨pure, fun env S part env₁ S₁ hrun => ?_⟩
    rw [execTo] at hrun
    obtain ⟨heq, rfl⟩ := pure_eq_ok_iff.1 hrun
    obtain ⟨rfl, rfl⟩ := Prod.mk.inj (Option.some.inj heq)
    rw [bind_pure]
  | block _ stmts, .nth i :: way => execAll_of_execAllTo sc stmts i way
  | ifElse _ cond onTrue _, .onTrue :: way => by
    obtain ⟨rest, hrest⟩ := onTrue.exec_of_execTo sc way
    refine ⟨rest, fun env S part env₁ S₁ hrun => ?_⟩
    obtain ⟨d, S₂, hcond, hrun⟩ := bind_eq_ok_iff.1 hrun
    rw [exec, bind_of_ok hcond]
    by_cases hholds : d.holds = true
    · rw [if_pos hholds] at hrun ⊢
      exact hrest hrun
    · rw [if_neg hholds] at hrun
      cases (pure_eq_ok_iff.1 hrun).1
  | ifElse _ cond _ (some onFalse), .onFalse :: way => by
    obtain ⟨rest, hrest⟩ := onFalse.exec_of_execTo sc way
    refine ⟨rest, fun env S part env₁ S₁ hrun => ?_⟩
    obtain ⟨d, S₂, hcond, hrun⟩ := bind_eq_ok_iff.1 hrun
    rw [exec, bind_of_ok hcond]
    by_cases hholds : d.holds = true
    · rw [if_pos hholds] at hrun
      cases (pure_eq_ok_iff.1 hrun).1
    · rw [if_neg hholds] at hrun ⊢
      exact hrest hrun
  | .for _ (some init) cond update body, .init :: way => by
    obtain ⟨rest, hrest⟩ := init.exec_of_execTo sc way
    refine ⟨fun leave => (rest leave).followedBy (loop (goesOn sc cond)
      (fun env => (body.exec sc env).followedBy (execOption sc update)) sc.rounds),
      fun env S part env₁ S₁ hrun => ?_⟩
    exact followedBy_of_eq (hrest hrun)
  | block .., .onTrue :: _ | block .., .onFalse :: _ | block .., .init :: _ | varDecl .., _ :: _
  | assign .., _ :: _ | indexAssign .., _ :: _ | call .., _ :: _ | .return .., _ :: _
  | ifElse .., .nth _ :: _ | ifElse .., .init :: _ | ifElse _ _ _ none, .onFalse :: _
  | .while .., _ :: _ | .for _ none .., .init :: _ | .for .., .nth _ :: _ | .for .., .onTrue :: _
  | .for .., .onFalse :: _ => by
    refine ⟨pure, fun env S part env₁ S₁ hrun => ?_⟩
    simp [execTo] at hrun

/-- An execution of a list of statements that gets to a part executes this part there, and then
    whatever is left. -/
theorem execAll_of_execAllTo (sc : Scene) : (stmts : List Stmt) → (i : Nat) → (way : List Turn) →
    ∃ rest : Leave → Exec Leave, ∀ ⦃env S part env₁ S₁⦄,
      execAllTo sc stmts i way env S = .ok (some (part, env₁)) S₁ →
        execAll sc stmts env S = (part.exec sc env₁ >>= rest) S₁
  | [], _, _ => by
    refine ⟨pure, fun env S part env₁ S₁ hrun => ?_⟩
    cases (pure_eq_ok_iff.1 hrun).1
  | stmt :: others, 0, way => by
    obtain ⟨rest, hrest⟩ := stmt.exec_of_execTo sc way
    refine ⟨fun leave => (rest leave).followedBy (execAll sc others), fun env S part env₁ S₁ hrun => ?_⟩
    exact followedBy_of_eq (hrest hrun)
  | stmt :: others, i + 1, way => by
    obtain ⟨rest, hrest⟩ := execAll_of_execAllTo sc others i way
    refine ⟨rest, fun env S part env₁ S₁ hrun => ?_⟩
    obtain ⟨leave, S₂, hfirst, hrun⟩ := bind_eq_ok_iff.1 hrun
    rw [execAll, followedBy, bind_of_ok hfirst]
    cases leave with
    | next env' => exact hrest hrun
    | «return» => cases (pure_eq_ok_iff.1 hrun).1

end

end Stmt

/-- Code is being generated for the declarations of a method. -/
structure GenState.Ongoing (s : GenState) (Γ : Context) : Prop where
  noted : s.asm.Noted
  signature : s.table.signature = Γ.sig

namespace GenState.Ongoing

variable {s s' : GenState} {Γ : Context}

theorem quiet (h : s.Ongoing Γ) {labels : List Label} {P : Image → (Label → Nat) → Prop}
    (hquiet : Quiet s s') (hemits : Emits s s' labels P) : s'.Ongoing Γ :=
  ⟨hemits.noted h.noted, hquiet.table ▸ h.signature⟩

/-- Filling in jumps leaves the declarations and what is known of the variables as they were. -/
theorem patchAll (h : s.Ongoing Γ) {labels : List Label} (hpatch : patchAll labels s = .ok () s') :
    s'.Ongoing Γ ∧ s'.known = s.known := by
  obtain rfl := patchAll_eq_ok_iff.1 hpatch
  refine ⟨⟨⟨fun a target hmem => ?_, ?_⟩, h.signature⟩, rfl⟩
  · rw [Assembler.foldl_patch_eq, Assembler.relocations_patchAllTo] at hmem
    rw [Assembler.foldl_patch_eq, Assembler.here_patchAllTo]
    exact h.noted.below a target hmem
  · rw [Assembler.foldl_patch_eq, Assembler.relocations_patchAllTo]
    exact h.noted.sorted

theorem gen (h : s.Ongoing Γ) {site : Site} {stmt : Stmt} (hgen : stmt.gen site s = .ok () s') :
    s'.Ongoing Γ ∧ ∃ im : Image, im.signature = Γ.sig ∧
      stmt.Code im site s.tracked s.here s'.here s'.tracked := by
  obtain ⟨im, hsig, hsame, hnoted, hcode⟩ := (stmt.gen_yields site hgen).exists_shape h.noted
  exact ⟨⟨hnoted, hsame.trans h.signature⟩, im, hsig.trans h.signature, hcode⟩

end GenState.Ongoing

/-- The statement at a station does not run again and again, and whenever an execution gets there,
    what is known there of the variables is right, if what was known at the start was right. -/
structure Station.Trusted (station : Station) (Γ : Context) (locals : List SymbolId)
    (known : Dict SymbolId Word)
    (arrive : Scene → Valuation → Exec (Option (Stmt × Valuation))) : Prop where
  straight : station.site.inLoop = false
  typed : station.stmt.WellTyped Γ station.locals
  plain : station.stmt.plainUpdates = true
  ongoing : station.before.Ongoing Γ
  generated : station.stmt.gen station.site station.before = .ok () station.after
  knows : ∀ ⦃sc W env S part env₁ S₁⦄, sc.Ready Γ (Γ.params ++ locals) 0 W env S 0 →
    Γ.Knows (Γ.params ++ locals) env known → arrive sc env S = .ok (some (part, env₁)) S₁ →
      part = station.stmt ∧ ∃ W₁, sc.Ready Γ (Γ.params ++ station.locals) 0 W₁ env₁ S₁ 0 ∧
        Γ.Knows (Γ.params ++ station.locals) env₁ station.before.known

namespace Station.Trusted

variable {station : Station} {Γ : Context} {locals locals' : List SymbolId}
  {known known' : Dict SymbolId Word}
  {arrive arrive' : Scene → Valuation → Exec (Option (Stmt × Valuation))}

/-- Something comes first that keeps what is known right. -/
theorem after (h : station.Trusted Γ locals' known' arrive')
    (hfirst : ∀ ⦃sc W env S part env₁ S₁⦄, sc.Ready Γ (Γ.params ++ locals) 0 W env S 0 →
      Γ.Knows (Γ.params ++ locals) env known → arrive sc env S = .ok (some (part, env₁)) S₁ →
        ∃ W' env' S', sc.Ready Γ (Γ.params ++ locals') 0 W' env' S' 0 ∧
          Γ.Knows (Γ.params ++ locals') env' known' ∧
            arrive' sc env' S' = .ok (some (part, env₁)) S₁) :
    station.Trusted Γ locals known arrive where
  straight := h.straight
  typed := h.typed
  plain := h.plain
  ongoing := h.ongoing
  generated := h.generated
  knows := by
    intro sc W env S part env₁ S₁ hready hknows hrun
    obtain ⟨W', env', S', hready', hknows', hrun'⟩ := hfirst hready hknows hrun
    exact h.knows hready' hknows' hrun'

/-- Less is known than before. -/
theorem forget (h : station.Trusted Γ locals known' arrive)
    (hforgets : Γ.Forgets (Γ.params ++ locals) known known') :
    station.Trusted Γ locals known arrive :=
  h.after fun _ W env S _ _ _ hready hknows hrun =>
    ⟨W, env, S, hready, hknows.forget hforgets fun _ _ _ _ => rfl, hrun⟩

end Station.Trusted

/-- If the action ends, this is what it yields. -/
def Gen.Returns {α : Type} (a : α) (code : Gen α) : Prop :=
  ∀ ⦃s s' : GenState⦄ ⦃b : α⦄, code s = .ok b s' → b = a

theorem Gen.returns_pure {α : Type} (a : α) : Returns a (pure a) :=
  fun _ _ _ hrun => (pure_eq_ok_iff.1 hrun).1.symm

theorem Gen.Returns.after {α β : Type} {a : α} {first : Gen β} {code : β → Gen α}
    (h : ∀ b, Returns a (code b)) : Returns a (first >>= code) := by
  intro s s' b hrun
  obtain ⟨_, _, -, hrun⟩ := bind_eq_ok_iff.1 hrun
  exact h _ hrun

/-- A part that gets its code is one at which what is known can be trusted. -/
def Gen.YieldsTrusted (Γ : Context) (locals : List SymbolId) (code : Gen (Option Station))
    (arrive : Scene → Valuation → Exec (Option (Stmt × Valuation))) : Prop :=
  ∀ ⦃s s' : GenState⦄ ⦃station : Station⦄, s.Ongoing Γ → code s = .ok (some station) s' →
    station.Trusted Γ locals s.known arrive

namespace Gen

variable {Γ : Context} {locals : List SymbolId} {code : Gen (Option Station)}
  {arrive : Scene → Valuation → Exec (Option (Stmt × Valuation))}

theorem yieldsTrusted_none {first : Gen Unit} :
    YieldsTrusted Γ locals (do first; pure none) arrive := by
  intro s s' station _ hrun
  obtain ⟨_, _, -, hrun⟩ := bind_eq_ok_iff.1 hrun
  cases (pure_eq_ok_iff.1 hrun).1

/-- Setting the line changes nothing of what is known. -/
theorem YieldsTrusted.line (h : YieldsTrusted Γ locals code arrive) {line : Nat} :
    YieldsTrusted Γ locals (do emit (·.setLine line); code) arrive := by
  intro s s' station hs hrun
  obtain ⟨_, s₁, hline, hrun⟩ := bind_eq_ok_iff.1 hrun
  obtain ⟨-, hquiet, hemits⟩ := setLine_emits hline
  rw [← hquiet.known]
  exact h (hs.quiet hquiet hemits) hrun

/-- The rest of the code comes after the part. -/
theorem YieldsTrusted.first (h : YieldsTrusted Γ locals code arrive)
    {rest : Option Station → Gen (Option Station)} (hrest : ∀ station, Returns station (rest station)) :
    YieldsTrusted Γ locals (do rest (← code)) arrive := by
  intro s s' station hs hrun
  obtain ⟨_, s₁, hcode, hrun⟩ := bind_eq_ok_iff.1 hrun
  obtain rfl := hrest _ hrun
  exact h hs hcode

/-- Code may depend on the state that it starts in. -/
theorem YieldsTrusted.get {code : GenState → Gen (Option Station)}
    (h : ∀ state, YieldsTrusted Γ locals (code state) arrive) :
    YieldsTrusted Γ locals (do code (← get)) arrive := by
  intro s s' station hs hrun
  obtain ⟨_, _, hget, hrun⟩ := bind_eq_ok_iff.1 hrun
  obtain ⟨rfl, rfl⟩ := get_eq_ok_iff.1 hget
  exact h s hs hrun

/-- A branch of a conditional is executed after the condition. -/
theorem YieldsTrusted.branch (arrive' : Scene → Valuation → Exec (Option (Stmt × Valuation)))
    {site : Site} {cond : Expr} {branches : Cond → Gen (Option Station)}
    (hcond : cond.HasType Γ (Γ.params ++ locals) .boolean)
    (h : ∀ outcome, YieldsTrusted Γ locals (branches outcome) arrive')
    (harrive : ∀ ⦃sc env S arrived S₁⦄, arrive sc env S = .ok (some arrived) S₁ →
      ∃ d S', cond.eval sc env S = .ok d S' ∧ arrive' sc env S' = .ok (some arrived) S₁) :
    YieldsTrusted Γ locals (do branches (← cond.genCond site false)) arrive := by
  intro s s' station hs hrun
  obtain ⟨outcome, s₁, hgen, hrun⟩ := bind_eq_ok_iff.1 hrun
  obtain ⟨hquiet, hemits⟩ := cond.genCond_yields site false hgen
  refine (h outcome (hs.quiet hquiet hemits) hrun).after
    fun sc W env S part env₁ S₁ hready hknows hrun => ?_
  obtain ⟨d, S', heval, hrun⟩ := harrive hrun
  obtain ⟨W', hready', -⟩ :=
    hready.after (hcond.sound hready.scene hready.env Ty.boolean_ne_void) heval
  exact ⟨W', env, S', hready', hquiet.known ▸ hknows, hrun⟩

end Gen

namespace Stmt

variable {Γ : Context}

mutual

/-- What is known where a part of a statement gets its code is right whenever an execution gets
    there. -/
theorem genStation_trusted : {site : Site} → {locals : List SymbolId} → (stmt : Stmt) →
    (way : List Turn) → site.inLoop = false → stmt.WellTyped Γ locals → stmt.plainUpdates = true →
      YieldsTrusted Γ locals (stmt.genStation site locals way) fun sc => stmt.execTo sc way
  | site, locals, stmt, [] => by
    intro hstraight htyped hplain s s' station hs hrun
    rw [genStation] at hrun
    obtain ⟨_, _, hget, hrun⟩ := bind_eq_ok_iff.1 hrun
    obtain ⟨rfl, rfl⟩ := get_eq_ok_iff.1 hget
    obtain ⟨_, s₁, hgen, hrun⟩ := bind_eq_ok_iff.1 hrun
    obtain ⟨_, _, hget, hrun⟩ := bind_eq_ok_iff.1 hrun
    obtain ⟨rfl, rfl⟩ := get_eq_ok_iff.1 hget
    obtain ⟨hstation, -⟩ := pure_eq_ok_iff.1 hrun
    obtain rfl := Option.some.inj hstation
    refine ⟨hstraight, htyped, hplain, hs, hgen, fun sc W env S part env₁ S₁ hready hknows hrun => ?_⟩
    rw [execTo] at hrun
    obtain ⟨harrived, rfl⟩ := pure_eq_ok_iff.1 hrun
    obtain ⟨rfl, rfl⟩ := Prod.mk.inj (Option.some.inj harrived)
    exact ⟨rfl, W, hready, hknows⟩
  | site, locals, block span stmts, .nth i :: way => by
    intro hstraight htyped hplain
    cases htyped with
    | block hstmts =>
      rw [genStation]
      exact (YieldsTrusted.get fun _ => (genAllStation_trusted stmts i way hstraight hstmts hplain).first
        fun station => .after fun _ => returns_pure station).line
  | site, locals, ifElse _ cond onTrue onFalse, .onTrue :: way => by
    intro hstraight htyped hplain
    obtain ⟨hplain, -⟩ := Bool.and_eq_true_iff.1 (by simpa [plainUpdates] using hplain)
    cases htyped with
    | ifElse hcond hTrue hFalse =>
      rw [genStation]
      refine (YieldsTrusted.branch (fun sc => onTrue.execTo sc way) hcond (fun outcome => ?_)
        fun sc env S arrived S₁ hrun => ?_).line
      · cases outcome with
        | known outcome =>
          cases outcome with
          | true => exact genStation_trusted onTrue way hstraight hTrue.typed hplain
          | false => exact yieldsTrusted_none
        | jumps toElse =>
          have hstraight : site.branch.inLoop = false := hstraight
          refine (genStation_trusted onTrue way hstraight hTrue.typed hplain).first fun station => ?_
          cases onFalse with
          | none => exact .after fun _ => returns_pure station
          | some onFalse =>
            refine .after fun _ => ?_
            refine .after fun _ => ?_
            refine .after fun _ => ?_
            refine .after fun _ => ?_
            exact returns_pure station
      · obtain ⟨d, S', heval, hrun⟩ := bind_eq_ok_iff.1 hrun
        by_cases hholds : d.holds = true
        · rw [if_pos hholds] at hrun
          exact ⟨d, S', heval, hrun⟩
        · rw [if_neg hholds] at hrun
          cases (pure_eq_ok_iff.1 hrun).1
  | site, locals, ifElse _ cond onTrue (some onFalse), .onFalse :: way => by
    intro hstraight htyped hplain
    obtain ⟨-, hplain⟩ := Bool.and_eq_true_iff.1 (by simpa [plainUpdates] using hplain)
    cases htyped with
    | ifElse hcond hTrue hFalse =>
      have hFalse := hFalse _ rfl
      rw [genStation]
      refine (YieldsTrusted.branch (fun sc => onFalse.execTo sc way) hcond (fun outcome => ?_)
        fun sc env S arrived S₁ hrun => ?_).line
      · cases outcome with
        | known outcome =>
          cases outcome with
          | true => exact yieldsTrusted_none
          | false => exact genStation_trusted onFalse way hstraight hFalse.typed hplain
        | jumps toElse =>
          intro s s' station hs hrun
          obtain ⟨_, s₁, hgen, hrun⟩ := bind_eq_ok_iff.1 hrun
          obtain ⟨done, s₂, hjump, hrun⟩ := bind_eq_ok_iff.1 hrun
          obtain ⟨_, s₃, hpatch, hrun⟩ := bind_eq_ok_iff.1 hrun
          obtain ⟨hs₁, im, -, hcode⟩ := hs.gen hgen
          obtain ⟨-, hquiet, hemits⟩ := Emits.jump hjump
          obtain ⟨hs₃, hknown⟩ := (hs₁.quiet hquiet hemits).patchAll hpatch
          have hstraight : site.branch.inLoop = false := hstraight
          have htrusted := (genStation_trusted onFalse way hstraight hFalse.typed hplain).first
            (fun station => .after fun _ => returns_pure station) hs₃ hrun
          rw [hknown, hquiet.known] at htrusted
          exact htrusted.forget (hcode.forgets rfl hTrue.typed)
      · obtain ⟨d, S', heval, hrun⟩ := bind_eq_ok_iff.1 hrun
        by_cases hholds : d.holds = true
        · rw [if_pos hholds] at hrun
          cases (pure_eq_ok_iff.1 hrun).1
        · rw [if_neg hholds] at hrun
          exact ⟨d, S', heval, hrun⟩
  | _, _, .for span (some init) cond update body, .init :: way => by
    intro hstraight htyped hplain
    obtain ⟨hplain, -⟩ := plain_of_plainUpdates hplain
    cases htyped with
    | «for» hinit _ _ _ =>
      rw [genStation]
      refine (YieldsTrusted.get fun _ => ?_).line
      refine (genStation_trusted init way hstraight (hinit init rfl) hplain).first fun station => ?_
      refine .after fun _ => ?_
      refine .after fun _ => ?_
      exact returns_pure station
  | _, _, block .., .onTrue :: _ | _, _, block .., .onFalse :: _
  | _, _, block .., .init :: _ | _, _, varDecl .., _ :: _
  | _, _, assign .., _ :: _ | _, _, indexAssign .., _ :: _
  | _, _, call .., _ :: _ | _, _, .return .., _ :: _
  | _, _, ifElse .., .nth _ :: _ | _, _, ifElse .., .init :: _
  | _, _, ifElse _ _ _ none, .onFalse :: _ | _, _, .while .., _ :: _
  | _, _, .for _ none .., .init :: _ | _, _, .for .., .nth _ :: _
  | _, _, .for .., .onTrue :: _ | _, _, .for .., .onFalse :: _ => by
    intro _ _ _
    simp only [genStation]
    exact yieldsTrusted_none

/-- On the way to a part of a list of statements that is not in a loop, what the generator knows of
    the variables is right. -/
theorem genAllStation_trusted : {site : Site} → {locals : List SymbolId} → (stmts : List Stmt) →
    (i : Nat) → (way : List Turn) → site.inLoop = false → ListWellTyped Γ locals stmts →
      allPlainUpdates stmts = true → YieldsTrusted Γ locals (genAllStation site locals stmts i way)
        fun sc => execAllTo sc stmts i way
  | _, _, [], _, _ => fun _ _ _ _ _ _ _ hrun => by cases (pure_eq_ok_iff.1 hrun).1
  | _, _, stmt :: rest, 0, way => by
    intro hstraight htyped hplain
    obtain ⟨hplain, -⟩ := Bool.and_eq_true_iff.1 (by simpa [allPlainUpdates] using hplain)
    cases htyped with
    | cons hstmt _ =>
      rw [genAllStation]
      refine (genStation_trusted stmt way hstraight hstmt hplain).first fun station => ?_
      refine .after fun _ => ?_
      exact returns_pure station
  | site, locals, stmt :: rest, i + 1, way => by
    intro hstraight htyped hplain
    obtain ⟨hplain, hplain'⟩ := Bool.and_eq_true_iff.1 (by simpa [allPlainUpdates] using hplain)
    cases htyped with
    | cons hstmt hrest =>
      have hrest := genAllStation_trusted rest i way hstraight hrest hplain'
      intro s s' station hs hrun
      rw [genAllStation] at hrun
      obtain ⟨_, s₁, hgen, hrun⟩ := bind_eq_ok_iff.1 hrun
      obtain ⟨hs₁, im, him, hcode⟩ := hs.gen hgen
      refine (hrest hs₁ hrun).after fun sc W env S part env₁ S₁ hready hknows hrun => ?_
      obtain ⟨leave, S₂, hfirst, hrun⟩ := bind_eq_ok_iff.1 hrun
      cases leave with
      | «return» => cases (pure_eq_ok_iff.1 hrun).1
      | next env₂ =>
        have htracks := hcode.learns him hstmt hplain hready (Site.relies_straight hstraight ▸ hknows) hfirst
        obtain ⟨W₂, hready₂⟩ := hready.next (hstmt.sound hready.scene hready.env hplain) hfirst
        refine ⟨W₂, env₂, S₂, hready₂, ?_, hrun⟩
        have hknows₂ := htracks.knows
        rw [Site.relies_straight hstraight] at hknows₂
        exact hknows₂

end

end Stmt

/-- What is known in a method is right. -/
theorem MethodDef.genStation_trusted {sig : Signature} {method : MethodDef} {m : SymbolId}
    {info : MethodInfo} (htyped : method.WellTyped sig m info)
    (hplain : Stmt.allPlainUpdates method.body = true) {options : Options} {i : Nat}
    {way : List Turn} {before after : GenState} {station : Station} (hsig : before.table.signature = sig)
    (hnoted : before.asm.Noted)
    (hrun : method.genStation options i way before = .ok (some station) after) :
    station.Trusted (bodyContext sig m info) [] .empty fun sc => Stmt.execAllTo sc method.body i way := by
  have hbefore : before.Ongoing (bodyContext sig m info) := ⟨hnoted, hsig⟩
  obtain ⟨x, _, hname, hrun⟩ := bind_eq_ok_iff.1 hrun
  obtain ⟨-, rfl⟩ := bound_eq_ok_iff.1 hname
  obtain ⟨_, s₁, hline, hrun⟩ := bind_eq_ok_iff.1 hrun
  obtain ⟨-, hquiet, hemits⟩ := setLine_emits hline
  have hs₁ := hbefore.quiet hquiet hemits
  obtain ⟨_, _, hhere, hrun⟩ := bind_eq_ok_iff.1 hrun
  obtain ⟨rfl, rfl⟩ := here_eq_ok_iff.1 hhere
  obtain ⟨_, s₂, hset, hrun⟩ := bind_eq_ok_iff.1 hrun
  obtain ⟨table, htable, rfl⟩ := setSlot_eq_ok_iff.1 hset
  obtain ⟨_, s₃, hfresh, hrun⟩ := bind_eq_ok_iff.1 hrun
  obtain rfl := modify_eq_ok_iff.1 hfresh
  obtain ⟨found, s₄, hbody, hrun⟩ := bind_eq_ok_iff.1 hrun
  obtain rfl : some station = found := by
    split at hrun
    · exact (Returns.after fun _ => returns_pure found) hrun
    · exact returns_pure found hrun
  have hs₃ : GenState.Ongoing { s₁ with table, nextLocal := linkDataSize, known := .empty }
      (bodyContext sig m info) :=
    ⟨hs₁.noted, (SymbolTable.signature_setSlot htable).trans hs₁.signature⟩
  exact Stmt.genAllStation_trusted method.body i way rfl htyped.body hplain hs₃ hbody

namespace Package

end Package

end SmallJava
