import SmallJava.Proofs.Locals.Program
import SmallJava.Proofs.Outcome
import SmallJava.Proofs.Typing.StmtSites

namespace SmallJava

namespace Gen

variable {α β : Type}

/-- The action leaves the next offset as it found it. -/
def Steady (code : Gen α) : Prop :=
  ∀ ⦃s s' : GenState⦄ ⦃a : α⦄, code s = .ok a s' → s'.nextLocal = s.nextLocal

theorem Steady.bind {code : Gen α} {next : α → Gen β} (hcode : Steady code)
    (hnext : ∀ a, Steady (next a)) : Steady (code >>= next) := by
  intro s s' b hrun
  obtain ⟨a, s₁, hrun, hrest⟩ := bind_eq_ok_iff.1 hrun
  rw [hnext a hrest, hcode hrun]

theorem steady_of_quiet {code : Gen α}
    (hcode : ∀ ⦃s s' : GenState⦄ ⦃a : α⦄, code s = .ok a s' → Quiet s s') : Steady code :=
  fun _ _ _ hrun => (hcode hrun).nextLocal

theorem steady_pure {a : α} : Steady (pure a : Gen α) := by
  intro s s' b hrun
  obtain ⟨-, rfl⟩ := pure_eq_ok_iff.1 hrun
  rfl

theorem steady_emit {f : Assembler → Assembler} : Steady (emit f) := by
  intro s s' u hrun
  obtain rfl := emit_eq_ok_iff.1 hrun
  rfl

theorem steady_learn {x : SymbolId} {word : Word} : Steady (learn x word) := by
  intro s s' u hrun
  obtain rfl := modify_eq_ok_iff.1 hrun
  rfl

theorem steady_forget {x : SymbolId} : Steady (forget x) := by
  intro s s' u hrun
  obtain rfl := modify_eq_ok_iff.1 hrun
  rfl

/-- What is remembered of a variable has nothing to do with offsets. -/
theorem steady_track {site : Site} {target : Reference} {value : Value} :
    Steady (track site target value) := by
  unfold track
  split
  · exact steady_pure
  · split
    · exact steady_learn
    · exact steady_forget
  · exact steady_forget

/-- An assignment leaves the next offset as it was. -/
theorem Steady.assign {site : Site} {target : Reference} {value : Gen Value} (hvalue : Steady value) :
    Steady (assign site target value) := by
  refine (steady_of_quiet fun _ _ _ hrun => (target.destination_emits hrun).1).bind
    fun destination => ?_
  refine hvalue.bind fun found => ?_
  refine Steady.bind ?_ fun _ => ?_
  · cases found with
    | known word => exact steady_emit (f := (·.literal word.toInt))
    | onStack => exact steady_pure
  · cases destination with
    | register r d =>
      refine (steady_emit (f := (·.store r d))).bind fun _ => ?_
      split
      · exact steady_track
      · exact steady_pure
    | field => exact steady_emit (f := (·.primitive .fieldupd))

theorem Steady.assignElement {target : Reference} {subscript value : Gen Unit}
    (hsubscript : Steady subscript) (hvalue : Steady value) :
    Steady (assignElement target subscript value) := by
  refine (steady_of_quiet fun _ _ _ hrun => (target.push_emits hrun).1).bind fun _ => ?_
  refine hsubscript.bind fun _ => ?_
  refine hvalue.bind fun _ => ?_
  exact steady_emit

theorem steady_callFor {site : Site} {callee : Reference} {args : List Expr} :
    Steady (callFor callee (Expr.genArgs site args)) := by
  refine (steady_of_quiet fun _ _ _ hrun => (call_emits (Expr.genArgs_pushes site args) hrun).1).bind
    fun method => ?_
  refine (steady_of_quiet fun s s' t hrun => ?_).bind fun table => ?_
  · obtain ⟨-, rfl⟩ := table_eq_ok_iff.1 hrun
    exact Quiet.refl s
  · split
    · exact steady_emit (f := (·.pop 1))
    · exact steady_pure

theorem steady_genPush {site : Site} {expr : Expr} : Steady (expr.genPush site) :=
  steady_of_quiet fun _ _ _ hrun => (expr.genPush_pushes site hrun).1

theorem steady_genValue {site : Site} {expr : Expr} : Steady (expr.genValue site) :=
  steady_of_quiet fun _ _ _ hrun => (expr.genValue_yields site hrun).1

theorem steady_genCond {site : Site} {expr : Expr} {when : Bool} : Steady (expr.genCond site when) :=
  steady_of_quiet fun _ _ _ hrun => (expr.genCond_yields site when hrun).1

theorem steady_returnWith {site : Site} {value : Option Expr} :
    Steady (returnWith site (value.map (·.genPush site))) := by
  cases value with
  | none => exact steady_emit (f := (·.returnWith 0 site.argCount))
  | some value => exact steady_genPush.bind fun _ => steady_emit

theorem steady_emitJump {jump : Assembler → Assembler} : Steady (emitJump jump) := by
  intro s s' label hrun
  obtain ⟨-, rfl⟩ := emitJump_eq_ok_iff.1 hrun
  rfl

theorem steady_here : Steady here := by
  intro s s' a hrun
  obtain ⟨-, rfl⟩ := here_eq_ok_iff.1 hrun
  rfl

theorem steady_backTo {start : Address} (cond : Cond) : Steady (backTo start cond) := by
  match cond with
  | .known true => exact steady_emit (f := (·.jumpTo start))
  | .known false => exact steady_pure
  | .jumps back =>
    exact steady_emit (f := fun asm => back.foldl (fun asm label => asm.patchTo label start) asm)

theorem Steady.afterLine {line : Nat} {code : Gen Unit} (hcode : Steady code) :
    Steady (do emit (·.setLine line); code) :=
  (steady_emit (f := (·.setLine line))).bind fun _ => hcode

/-- The end of a block takes back all offsets that were given in it. -/
theorem steady_release (code : Gen Unit) :
    Steady (do let mark := (← get).nextLocal; code; release mark) := by
  intro s s' u hrun
  obtain ⟨_, _, hget, hrun⟩ := bind_eq_ok_iff.1 hrun
  obtain ⟨rfl, rfl⟩ := get_eq_ok_iff.1 hget
  obtain ⟨_, s₁, -, hrelease⟩ := bind_eq_ok_iff.1 hrun
  obtain ⟨_, _, -, hrelease⟩ := bind_eq_ok_iff.1 hrelease
  obtain ⟨_, s₂, -, hmodify⟩ := bind_eq_ok_iff.1 hrelease
  obtain rfl := modify_eq_ok_iff.1 hmodify
  rfl

/-- A choice leaves the next offset as it was if both branches do. -/
theorem Steady.ifElse {site : Site} {cond : Bool → Gen Cond} {onTrue : Site → Gen Unit}
    {onFalse : Option (Site → Gen Unit)} (hcond : Steady (cond false))
    (hTrue : ∀ site, Steady (onTrue site)) (hFalse : ∀ code ∈ onFalse, ∀ site, Steady (code site)) :
    Steady (Gen.ifElse site cond onTrue onFalse) := by
  have hpatch : ∀ labels, Steady (patchAll labels) := fun labels =>
    steady_emit (f := fun asm => labels.foldl Assembler.patch asm)
  refine hcond.bind fun found => ?_
  match found, onFalse with
  | .known true, _ => exact hTrue site
  | .known false, none => exact steady_pure
  | .known false, some onFalse => exact hFalse onFalse rfl site
  | .jumps toElse, none => exact (hTrue site.branch).bind fun _ => hpatch toElse
  | .jumps toElse, some onFalse =>
    refine (hTrue site.branch).bind fun _ => ?_
    refine steady_emitJump.bind fun done => ?_
    refine (hpatch toElse).bind fun _ => ?_
    refine (hFalse onFalse rfl site.branch).bind fun _ => ?_
    exact steady_emit (f := (·.patch done))

/-- A loop whose condition and body are steady is so, if there is nothing between its rounds. -/
theorem Steady.loop {line : Nat} {cond : Bool → Gen Cond} {body : Gen Unit}
    (hcond : ∀ when, Steady (cond when)) (hbody : Steady body) :
    Steady (Gen.loop line cond body (pure ())) := by
  have hrounds : ∀ exits, Steady (rounds line cond body (pure ()) exits) := by
    intro exits
    refine steady_here.bind fun start => ?_
    refine hbody.bind fun _ => ?_
    refine steady_pure.bind fun _ => ?_
    refine (steady_emit (f := (·.setLine line))).bind fun _ => ?_
    refine (hcond true).bind fun back => ?_
    refine (steady_backTo back).bind fun _ => ?_
    exact steady_emit (f := fun asm => exits.foldl Assembler.patch asm)
  refine (hcond false).bind fun found => ?_
  match found with
  | .known false => exact steady_pure
  | .known true => exact hrounds []
  | .jumps exits => exact hrounds exits

/-- A declaration takes one offset. -/
theorem nextLocal_of_declare {site : Site} {var : LocalDef} {init : Expr} {s s' : GenState} {u : Unit}
    (hrun : declare var (init.genValue site) s = .ok u s') : s'.nextLocal = s.nextLocal + 1 := by
  obtain ⟨x, _, hbound, hrun⟩ := bind_eq_ok_iff.1 hrun
  obtain ⟨-, rfl⟩ := bound_eq_ok_iff.1 hbound
  obtain ⟨_, _, hget, hrun⟩ := bind_eq_ok_iff.1 hrun
  obtain ⟨rfl, rfl⟩ := get_eq_ok_iff.1 hget
  obtain ⟨_, _, hset, hrun⟩ := bind_eq_ok_iff.1 hrun
  obtain ⟨table, -, rfl⟩ := setSlot_eq_ok_iff.1 hset
  obtain ⟨_, _, hmodify, hrun⟩ := bind_eq_ok_iff.1 hrun
  obtain rfl := modify_eq_ok_iff.1 hmodify
  refine steady_genValue.bind (fun value => ?_) hrun
  cases value with
  | known word => exact (steady_emit (f := (·.literal word.toInt))).bind fun _ => steady_learn
  | onStack => exact steady_forget

end Gen

open Gen

namespace Stmt

/-- The statements in a statement that a condition or a loop decides on, apart from what comes
    before the first round: branches of conditionals, bodies of loops, and what loops do between
    rounds. -/
def branches : Stmt → List Stmt
  | ifElse _ _ onTrue onFalse => onTrue :: onFalse.toList
  | .while _ _ body => [body]
  | .for _ _ _ update body => update.toList ++ [body]
  | _ => []

variable {Γ : Context} {locals : List SymbolId} {site : Site}

/-- A well-typed statement that declares nothing for what follows it leaves the next offset as it
    found it. -/
theorem WellTyped.steady : {stmt : Stmt} → {locals : List SymbolId} → stmt.WellTyped Γ locals →
    stmt.isVarDecl = false → (site : Site) → Steady (stmt.gen site)
  | .varDecl .., _ => nofun
  | .block span stmts, _ => by
    intro _ _ site
    unfold gen
    exact (steady_release _).afterLine
  | .assign span target value, _ => by
    intro _ _ site
    unfold gen
    exact (Steady.assign steady_genValue).afterLine
  | .indexAssign span target subscript value, _ => by
    intro _ _ site
    unfold gen
    exact (Steady.assignElement steady_genPush steady_genPush).afterLine
  | .call span callee args, _ => by
    intro _ _ site
    unfold gen
    exact steady_callFor.afterLine
  | .return span value, _ => by
    intro _ _ site
    unfold gen
    exact steady_returnWith.afterLine
  | .ifElse span cond onTrue none, _ => by
    intro h _ site
    unfold gen
    cases h with
    | ifElse _ hTrue _ =>
      exact (Steady.ifElse steady_genCond (hTrue.typed.steady hTrue.plain) (by simp)).afterLine
  | .ifElse span cond onTrue (some onFalse), _ => by
    intro h _ site
    unfold gen
    cases h with
    | ifElse _ hTrue hFalse =>
      have hFalse := hFalse onFalse rfl
      have honFalse := hFalse.typed.steady hFalse.plain
      refine (Steady.ifElse steady_genCond (hTrue.typed.steady hTrue.plain) ?_).afterLine
      rintro code ⟨⟩
      exact honFalse
  | .while span cond body, _ => by
    intro h _ site
    unfold gen
    cases h with
    | «while» _ hbody =>
      exact (Steady.loop (fun _ => steady_genCond)
        (hbody.typed.steady hbody.plain site.loop)).afterLine
  | .for span init cond update body, _ => by
    intro _ _ site
    unfold gen
    -- What the rounds of the loop take is taken back with what comes before the first one.
    have hrelease := steady_release do
      genOption site init
      loop span.line (loopCond site.loop cond) (body.gen site.loop) (genOption site.loop update)
    simp only [bind_assoc] at hrelease
    exact hrelease.afterLine

/-- A well-typed statement takes one offset if it is a declaration, and none otherwise. -/
theorem WellTyped.nextLocal_gen {stmt : Stmt} (h : stmt.WellTyped Γ locals) {s s' : GenState}
    (hrun : stmt.gen site s = .ok () s') :
    s'.nextLocal = s.nextLocal + if stmt.isVarDecl then 1 else 0 := by
  cases hdecl : stmt.isVarDecl with
  | false => simpa using h.steady hdecl site hrun
  | true =>
    cases stmt with
    | varDecl span var init =>
      unfold gen at hrun
      obtain ⟨_, s₁, hline, hrun⟩ := bind_eq_ok_iff.1 hrun
      obtain rfl := emit_eq_ok_iff.1 hline
      simpa using nextLocal_of_declare hrun
    | _ => cases hdecl

/-- Only what a loop does between its rounds can be a declaration. -/
theorem WellTyped.branches {stmt branch : Stmt} (h : stmt.WellTyped Γ locals)
    (hbranch : branch ∈ stmt.branches) :
    (∃ vars, branch.WellTyped Γ vars) ∧ (branch.isVarDecl = true →
      ∃ span init cond body, stmt = .for span init cond (some branch) body) := by
  cases h with
  | block | varDecl | assign | indexAssign | call | «return» | returnValue => cases hbranch
  | @ifElse _ _ _ onTrue onFalse _ hTrue hFalse =>
    have hbranch : branch.BranchWellTyped Γ locals := by
      obtain rfl | hbranch := List.mem_cons.1 hbranch
      · exact hTrue
      · exact hFalse branch (by simpa using hbranch)
    exact ⟨⟨_, hbranch.typed⟩, by simp [hbranch.plain]⟩
  | «while» _ hbody =>
    obtain rfl := List.mem_singleton.1 hbranch
    exact ⟨⟨_, hbody.typed⟩, by simp [hbody.plain]⟩
  | @«for» _ span init cond update body _ _ hupdate hbody =>
    obtain hbranch | hbranch := List.mem_append.1 hbranch
    · obtain rfl : update = some branch := by simpa using hbranch
      exact ⟨⟨_, hupdate branch rfl⟩, fun _ => ⟨span, init, cond, body, rfl⟩⟩
    · obtain rfl := List.mem_singleton.1 hbranch
      exact ⟨⟨_, hbody.typed⟩, by simp [hbody.plain]⟩

end Stmt

namespace Package

/-- What runs once, often or not at all leaves the next offset as it found it, with one exception:
    in an accepted program, whatever it looks like, a branch of a conditional, the body of a loop
    or what a loop does between its rounds takes one offset if it is a declaration and none
    otherwise, and only between the rounds of a `for` loop there can be a declaration. -/
theorem branches_balanced {package package' : Package} {analysis : Analysis} {log : Diagnostic.Log}
    (hcheck : package.check .any = (.ok (package', analysis), log)) {stmt branch : Stmt}
    (hstmt : stmt ∈ package'.stmts) (hbranch : branch ∈ stmt.branches) (site : Site)
    {before after : GenState} (hrun : branch.gen site before = .ok () after) :
    after.nextLocal = before.nextLocal + (if branch.isVarDecl then 1 else 0) ∧
      (branch.isVarDecl = true →
        ∃ span init cond body, stmt = .for span init cond (some branch) body) := by
  have htyped : package'.WellTyped false false analysis :=
    wellTyped_of_check hcheck (package.disciplined nofun nofun)
  obtain ⟨method, hmethod, hstmt⟩ := List.mem_flatMap.1 hstmt
  obtain ⟨m, info, hbody⟩ := htyped.methods method hmethod
  rw [← Stmt.allStmtSites_map method.body []] at hstmt
  obtain ⟨⟨locals, _⟩, hsite, rfl⟩ := List.mem_map.1 hstmt
  have hstmt := hbody.body.stmtSites _ hsite
  obtain ⟨⟨vars, hbranch⟩, hfor⟩ := hstmt.branches hbranch
  exact ⟨hbranch.nextLocal_gen hrun, hfor⟩

/-- A program with a loop that declares a variable between its rounds:
    `for (int i = 0; i < 3; int x = i) i = i + 1;` -/
def growing : Package where
  classes := [{
    name := "Main"
    fields := []
    methods := [.main [
      .for {} (some (.varDecl {} { type := .int {}, name := "i" } (.int {} 0)))
        (some (.binary {} .lt (.ref {} (.ofPath "i")) (.int {} 3)))
        (some (.varDecl {} { type := .int {}, name := "x" } (.ref {} (.ofPath "i"))))
        (.assign {} (.ofPath "i") (.binary {} .add (.ref {} (.ofPath "i")) (.int {} 1)))]] }]

/-- Code is generated for its loop: for the variable of the loop, for the body, and for the
    declaration between the rounds, which takes an offset. -/
theorem growing_generates : ∃ package' analysis log stmt update body before mid after,
    growing.check .any = (.ok (package', analysis), log) ∧ stmt ∈ package'.stmts ∧
      update ∈ stmt.branches ∧ body ∈ stmt.branches ∧
        body.gen { folding := true, argCount := 0, inLoop := true } before = .ok () mid ∧
          update.gen { folding := true, argCount := 0, inLoop := true } mid = .ok () after ∧
            body.isVarDecl = false ∧ update.isVarDecl = true ∧ after.nextLocal ≠ mid.nextLocal := by
  have hrun : ((growing.check .any).1.toOption.any fun checked =>
      checked.1.stmts.any fun stmt => stmt.parts.head?.any fun init =>
        stmt.branches.any fun update => stmt.branches.any fun body =>
          let site : Site := { folding := true, argCount := 0 }
          okAnd (SlotWriter.layout checked.2.table) fun _ laidOut =>
            okAnd (init.gen site { table := laidOut, nextLocal := linkDataSize }) fun _ before =>
              okAnd (body.gen site.loop before) fun _ mid =>
                okAnd (update.gen site.loop mid) fun _ after => decide
                  (body.isVarDecl = false ∧ update.isVarDecl = true ∧
                    after.nextLocal ≠ mid.nextLocal)) = true := by
    decide +kernel
  obtain ⟨⟨package', analysis⟩, log, hcheck, hrun⟩ := exists_ok_of_any hrun
  obtain ⟨stmt, hstmt, hrun⟩ := List.any_eq_true.1 hrun
  obtain ⟨init, -, hrun⟩ := (Option.any_eq_true ..).1 hrun
  obtain ⟨update, hupdate, hrun⟩ := List.any_eq_true.1 hrun
  obtain ⟨body, hbody, hrun⟩ := List.any_eq_true.1 hrun
  obtain ⟨_, laidOut, -, hrun⟩ := exists_ok_of_okAnd hrun
  obtain ⟨_, before, -, hrun⟩ := exists_ok_of_okAnd hrun
  obtain ⟨_, mid, hgen, hrun⟩ := exists_ok_of_okAnd hrun
  obtain ⟨_, after, hgen', hrun⟩ := exists_ok_of_okAnd hrun
  exact ⟨package', analysis, log, stmt, update, body, before, mid, after, hcheck, hstmt, hupdate,
    hbody, hgen, hgen', of_decide_eq_true hrun⟩

/-- The body of the loop takes nothing, and the declaration between its rounds one offset. -/
theorem growing_balanced : ∃ package' analysis log stmt update body before mid after,
    growing.check .any = (.ok (package', analysis), log) ∧ stmt ∈ package'.stmts ∧
      update ∈ stmt.branches ∧ body ∈ stmt.branches ∧
        body.gen { folding := true, argCount := 0, inLoop := true } before = .ok () mid ∧
          update.gen { folding := true, argCount := 0, inLoop := true } mid = .ok () after ∧
            mid.nextLocal = before.nextLocal ∧ after.nextLocal = mid.nextLocal + 1 := by
  obtain ⟨package', analysis, log, stmt, update, body, before, mid, after, hcheck, hstmt, hupdate,
    hbody, hgen, hgen', hplain, hdecl, -⟩ := growing_generates
  have hkept := (branches_balanced hcheck hstmt hbody _ hgen).1
  have htaken := (branches_balanced hcheck hstmt hupdate _ hgen').1
  refine ⟨package', analysis, log, stmt, update, body, before, mid, after, hcheck, hstmt, hupdate,
    hbody, hgen, hgen', ?_, ?_⟩
  · simpa [hplain] using hkept
  · simpa [hdecl] using htaken

/-- So not everything that runs once, often or not at all leaves the next offset as it found it. -/
theorem growing_unbalanced : ∃ package' analysis log stmt branch site before after,
    growing.check .any = (.ok (package', analysis), log) ∧ stmt ∈ package'.stmts ∧
      branch ∈ stmt.branches ∧ branch.gen site before = .ok () after ∧
        after.nextLocal ≠ before.nextLocal := by
  obtain ⟨package', analysis, log, stmt, update, -, -, mid, after, hcheck, hstmt, hupdate, -, -, hgen,
    -, -, hne⟩ := growing_generates
  exact ⟨package', analysis, log, stmt, update, _, mid, after, hcheck, hstmt, hupdate, hgen, hne⟩

end Package

end SmallJava
