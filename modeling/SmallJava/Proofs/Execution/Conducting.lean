import SmallJava.Proofs.Codegen.StmtLocality
import SmallJava.Proofs.Execution.Deciding
import SmallJava.Proofs.Execution.Learning
import SmallJava.Proofs.Execution.Rounds
import SmallJava.Proofs.Execution.Runs
import SmallJava.Proofs.Typing.StmtSites

namespace SmallJava

open Machine Exec

/-- From a state on, the machine does what an evaluation does whose loops go on for as long as it
    takes: `run rounds` is its result if each loop may test its condition only so often, and it does
    not matter how often if that is enough. The evaluation makes sense. If it comes to an end, the
    machine comes to a state as described; if it stops with a fault, so does the machine; and if no
    number of rounds is enough, the machine runs forever. What is printed is the same. -/
structure Machine.Conducts {α : Type} (fetch : Address → Option Instruction) (m : Machine)
    (run : Nat → EStateM.Result Stop Store α) (Post : α → Store → Machine → Prop) : Prop where
  stable : ∀ rounds more, rounds ≤ more →
    (∃ S, run rounds = .error .timeout S) ∨ run more = run rounds
  sensible : ∀ rounds S, run rounds ≠ .error .stuck S
  arrives : ∀ rounds a S, run rounds = .ok a S → ∃ t m', Reaches fetch 0 m t m' ∧ Post a S m'
  faults : ∀ rounds fault S, run rounds = .error (.fault fault) S →
    Ends fetch m (.faulted fault) S.output
  forever : (∀ rounds, ∃ S, run rounds = .error .timeout S) → RunsForever fetch m ∧
    ∀ i d, Prints fetch m i d ↔ ∃ rounds S, run rounds = .error .timeout S ∧ S.output[i]? = some d

section Conducts

variable {α : Type} {fetch : Address → Option Instruction} {m : Machine}
  {run : Nat → EStateM.Result Stop Store α} {P : α → Store → Machine → Prop}

/-- If no number of rounds is enough, the machine is still running however late it is. -/
theorem Machine.outlasts_of_follows {stores : Nat → Store}
    (h : ∀ rounds, Follows fetch rounds 1 m (run rounds) fun a S _ m' => P a S m')
    (hstores : ∀ rounds, run rounds = .error .timeout (stores rounds)) :
    Outlasts fetch m fun deadline => (stores (deadline + 1)).output := by
  intro deadline
  have hfollows := h (deadline + 1)
  rw [hstores] at hfollows
  obtain ⟨t, m', hreach, hlate, hprinted⟩ := hfollows
  exact ⟨t - 1, m', by omega, hreach.after, hprinted⟩

/-- To follow an evaluation that makes sense, with any number of rounds, is to do what it does. -/
theorem Machine.conducts_of_follows
    (h : ∀ rounds, Follows fetch rounds 1 m (run rounds) fun a S _ m' => P a S m')
    (hstable : ∀ rounds more, rounds ≤ more →
      (∃ S, run rounds = .error .timeout S) ∨ run more = run rounds)
    (hsensible : ∀ rounds S, run rounds ≠ .error .stuck S) : Conducts fetch m run P where
  stable := hstable
  sensible := hsensible
  arrives := by
    intro rounds a S hrun
    have hfollows := h rounds
    rw [hrun] at hfollows
    obtain ⟨_, m', hreach, hpost⟩ := hfollows
    obtain ⟨t, hreach⟩ := hreach.shift 0
    exact ⟨t, m', hreach, hpost⟩
  faults := by
    intro rounds fault S hrun
    have hfollows := h rounds
    rw [hrun] at hfollows
    obtain ⟨_, _, m', hreach, hstep, hprinted⟩ := hfollows
    have hends : Ends fetch m (.faulted fault) m'.output := hreach.ends_faulted hstep
    rwa [hprinted] at hends
  forever := by
    intro hlate
    choose stores hstores using hlate
    have houtlasts := outlasts_of_follows h hstores
    refine ⟨houtlasts.runsForever, fun i d => ⟨fun hprints => ?_, ?_⟩⟩
    · obtain ⟨deadline, hget⟩ := houtlasts.prints_iff.1 hprints
      exact ⟨deadline + 1, stores (deadline + 1), hstores _, hget⟩
    · rintro ⟨rounds, S, hrun, hget⟩
      have hfollows := h rounds
      rw [hrun] at hfollows
      obtain ⟨t, m', hreach, -, hprinted⟩ := hfollows
      refine ⟨t - 1, ?_⟩
      rw [hreach.after, hprinted]
      exact hget

end Conducts

/-- The values of the variables where control goes on after a statement, if it does. -/
def Leave.next? : Leave → Option Valuation
  | next env => some env
  | .return _ => none

theorem Leave.next?_eq_some_iff {leave : Leave} {env : Valuation} :
    leave.next? = some env ↔ leave = .next env := by
  cases leave <;> simp [next?]

/-- Where the machine is when control leaves a statement: at its end, in a frame that holds the
    variables in force and in which what is known of them is right, or back in the caller with the
    result. -/
def Leave.Arrives (act : Activation) (Γ : Context) (locals : List SymbolId) (site : Site)
    (known : Dict SymbolId Word) (this : Datum) (b : Nat) : Leave → Store → Machine → Prop
  | next env, S, m => m = act.machine locals env S [] b ∧ ∃ W, act.At Γ locals site known this W env S
  | .return result, S, m => m = act.resumed S result.toList

/-- The number of rounds is no concern of the methods. -/
theorem Image.Provides.rounds {im : Image} {statics : List SymbolId} {sc : Scene}
    (h : im.Provides statics sc) (rounds : Nat) : im.Provides statics { sc with rounds } :=
  ⟨h.sig, h.typed, h.timely, h.entered⟩

namespace Activation.Settled

variable {act : Activation} {im : Image} {sc : Scene} {Γ : Context} {locals : List SymbolId}
  {site : Site} {known known' : Dict SymbolId Word} {W : HeapTyping} {env : Valuation} {S : Store}

/-- Where a statement ends, everything is settled for what follows. -/
theorem follows_stmt (h : act.Settled im sc Γ locals site known W env S) {stmt : Stmt}
    {locals' : List SymbolId} {deadline a b : Nat} (henough : deadline < 1 + sc.rounds)
    (hruns : act.Runs im sc Γ deadline 1 site locals locals' known known' a b (stmt.exec sc))
    (hsound : Sound Γ.sig W (stmt.exec sc env) fun W' =>
      Leave.Typed Γ.sig W' (Γ.params ++ locals') Γ.returnTy) :
    Follows im.fetch deadline 1 (act.machine locals env S [] a) (stmt.exec sc env S)
      fun leave S' _ m' => leave.Arrives act Γ locals' site known' sc.this b S' m' := by
  have hhost := h.hosts deadline 1 henough
  refine ((hruns W env S 1 (h.ready 1) h.knows).sound hsound h.store).mono ?_
  rintro leave S' t m' - ⟨hlands, W', hextends, hS', htyped⟩
  cases leave with
  | next env' =>
    obtain ⟨rfl, htracks⟩ := hlands
    refine ⟨rfl, W', ⟨hhost.params, fun hinstance => ?_, htyped, hS', fun hloop => ?_⟩⟩
    · exact ⟨hhost.object hinstance, (h.scene.mono hextends).this hinstance⟩
    · have hknows := htracks.knows
      rw [Site.relies_straight hloop] at hknows
      exact hknows.2
  | «return» result => exact hlands

end Activation.Settled

/-- The code of a statement has its shape wherever it stands. -/
theorem GenState.Placed.stmtCode {before after : GenState} {im : Image} {site : Site} {stmt : Stmt}
    (h : before.Placed after im) (hrun : stmt.gen site before = .ok () after)
    (hnoted : before.asm.Noted)
    (hcalls : ∀ note ∈ after.asm.relocations, (im.slot? note.target).isSome) :
    stmt.Code im site before.tracked before.here after.here after.tracked := by
  obtain ⟨im', hsame, heq, hrealizes⟩ := h.realizes hcalls
  obtain ⟨hcode, -⟩ := (stmt.gen_yields site hrun).shape hnoted im' _ (fun _ => 0) hrealizes
    fun a _ _ => by simp
  rw [← heq]
  exact hcode.inMemory hsame

/-- Code for a statement can be generated where the variables that it declares have no places yet,
    and gives places to these only. -/
theorem Stmt.WellTyped.generates {Γ : Context} {locals : List SymbolId} {stmt : Stmt}
    (h : stmt.WellTyped Γ locals) (hplain : stmt.plainUpdates = true) (hnodup : stmt.declared.Nodup)
    (site : Site) {before : GenState} (hready : before.table.Ready Γ.sig (Γ.params ++ locals))
    (hfree : ∀ x ∈ stmt.declared, before.table.slot? x = none) :
    ∃ after, stmt.gen site before = .ok () after ∧ after.table.signature = Γ.sig ∧
      (∀ x d, before.table.slot? x = some d → after.table.slot? x = some d) ∧
        before.NotesMethods after := by
  obtain ⟨_, after, hrun, hready', hsame, hnotes⟩ :=
    h.places_gen hplain hnodup site before hready hfree
  refine ⟨after, hrun, hready'.signature, fun x d hslot => ?_, hnotes⟩
  rw [hsame x fun hmem => ?_, hslot]
  rw [hfree x hmem] at hslot
  cases hslot

namespace Package

/-- Code for a statement executes it: in an accepted program in which `void` is only what methods
    return and updates of loops declare nothing, it can be generated wherever the statement stands,
    and in the finished program, from its first instruction on, the machine does what the execution
    of the statement does. Control leaves it at its end, with only those variables on top of the
    frame that are in force after it, or it returns with the result. Methods do what the scene
    says, whatever that is. This is as long as addresses are operands. -/
theorem stmt_conducts {package package' : Package} {analysis : Analysis} {log : Diagnostic.Log}
    (hcheck : package.check .any = (.ok (package', analysis), log))
    (hvoid : package.avoidsVoid = true) (hplain : package.plainUpdates = true) {method : MethodDef}
    (hmethod : method ∈ package'.methods) {locals : List SymbolId} {stmt : Stmt}
    (hstmt : (locals, stmt) ∈ method.stmtSites) (site : Site)
    (hargs : site.argCount = method.params.length) {before : GenState}
    (hbefore : before.Inside analysis locals)
    (hnext : before.nextLocal = linkDataSize + locals.length)
    (hfree : ∀ x ∈ stmt.declared, before.table.slot? x = none) :
    ∃ m info after, method.binding = some m ∧ analysis.table.kind? m = some (.method info) ∧
      stmt.gen site before = .ok () after ∧
        ∀ (im : Image) (sc : Scene) (act : Activation) (W : HeapTyping) (env : Valuation) (S : Store),
          before.Placed after im → after.here < 0x80000000 → im.Provides analysis.statics sc →
          act.statics = analysis.statics →
          act.At (MethodDef.bodyContext analysis.table.signature m info) locals site before.known
            sc.this W env S →
            Conducts im.fetch (act.machine locals env S [] before.here)
              (fun rounds => stmt.exec { sc with rounds } env S)
              (Leave.Arrives act (MethodDef.bodyContext analysis.table.signature m info)
                (locals ++ stmt.binds) site after.known sc.this after.here) := by
  have htyped : package'.WellTyped true true analysis :=
    wellTyped_of_check hcheck (package.disciplined (fun _ => hplain) fun _ => hvoid)
  obtain ⟨m, info, hbody⟩ := htyped.methods method hmethod
  have hmem : stmt ∈ Stmt.allStmts method.body := by
    rw [← Stmt.allStmtSites_map method.body []]
    exact List.mem_map_of_mem hstmt
  have hplain : stmt.plainUpdates = true :=
    Stmt.plainUpdates_of_mem_allStmts (htyped.plainUpdates rfl method hmethod) stmt hmem
  have hnodup : stmt.declared.Nodup :=
    Stmt.nodup_declared ((List.nodup_flatMap.1 htyped.locals).1 method hmethod) stmt hmem
  have hstmt : stmt.WellTyped (MethodDef.bodyContext analysis.table.signature m info) locals :=
    hbody.body.stmtSites _ hstmt
  obtain ⟨after, hrun, htable, hkept, hnotes⟩ :=
    hstmt.generates hplain hnodup site (hbefore.ready htyped.table hbody.kind) hfree
  refine ⟨m, info, after, hbody.bound, hbody.kind, hrun, ?_⟩
  intro im sc act W env S hplaced hfits hprovides hstatics hact
  have hsig : im.signature = analysis.table.signature := hplaced.signature.symm.trans htable
  have hslots : ∀ x d, before.table.slot? x = some d → im.slot? x = some d :=
    fun x d hslot => hplaced.slots x d (hkept x d hslot)
  have hsettled : ∀ rounds, act.Settled im { sc with rounds }
      (MethodDef.bodyContext analysis.table.signature m info) locals site before.known W env S :=
    fun rounds => hbefore.settled htyped.table hbody.kind htyped.voidFree hsig hslots
      (hprovides.rounds rounds) hstatics hact
  have hsound := fun rounds =>
    hstmt.sound (hsettled rounds).scene (hsettled rounds).valuation hplain
  have hcode : stmt.Code im site before.tracked before.here after.here after.tracked :=
    hplaced.stmtCode hrun hbefore.noted (hbefore.calls_placed hnotes hsig hprovides)
  have hframe := (hsettled 0).frame
  rw [← hnext] at hframe
  have hargs : site.argCount = act.params.length := by
    rw [hargs, hact.params]
    exact hbody.arity.symm
  refine conducts_of_follows (fun rounds => ?_) (fun rounds more hle => stmt.cutShort_exec hle env S)
    fun rounds S' => (hsound rounds S hact.store).1 S'
  have henough : rounds < 1 + rounds := by omega
  have hruns := hcode.runs ((hsettled rounds).hosts rounds 1 henough) hargs hfits hstmt hplain hframe
  exact (hsettled rounds).follows_stmt henough hruns (hsound rounds)

/-- A method with a loop that changes its parameter:
    `static int sink(int n) { for (int i = 0; i < 3; i = i + 1) n = n - i; return n; }` -/
def sinking : Package where
  classes := [{
    name := "Main"
    fields := []
    methods := [
      { modifiers := { isStatic := true }, returnType := .int {}, name := "sink"
        params := [{ type := .int {}, name := "n" }]
        body := [
          .for {} (some (.varDecl {} { type := .int {}, name := "i" } (.int {} 0)))
            (some (.binary {} .lt (.ref {} (.ofPath "i")) (.int {} 3)))
            (some (.assign {} (.ofPath "i")
              (.binary {} .add (.ref {} (.ofPath "i")) (.int {} 1))))
            (.assign {} (.ofPath "n")
              (.binary {} .sub (.ref {} (.ofPath "n")) (.ref {} (.ofPath "i")))),
          .return {} (some (.ref {} (.ofPath "n")))] },
      .main [.println (.call {} (.ofPath "sink") [.int {} 10])]] }]

/-- The loop in the body of `sink` takes 18 instructions. From a frame in which `n` is 10, they lead
    to a frame in which `n` is 7, and `i` is gone. -/
theorem sinking_conducts : ∃ package' analysis log method stmt before m info after im n,
    ∃ (sc : Scene) (act : Activation) (W : HeapTyping) (env : Valuation) (S : Store)
      (env' : Valuation) (S' : Store),
    sinking.check .any = (.ok (package', analysis), log) ∧ sinking.avoidsVoid = true ∧
      sinking.plainUpdates = true ∧ method ∈ package'.methods ∧ ([], stmt) ∈ method.stmtSites ∧
      method.params.length = 1 ∧ before.Inside analysis [] ∧ before.nextLocal = linkDataSize ∧
      stmt.declared ≠ [] ∧ (∀ x ∈ stmt.declared, before.table.slot? x = none) ∧
      method.binding = some m ∧ analysis.table.kind? m = some (.method info) ∧
      stmt.gen { folding := true, argCount := 1 } before = .ok () after ∧ after.here = 18 ∧
      before.Placed after im ∧ im.Provides analysis.statics sc ∧ act.statics = analysis.statics ∧
      act.At (MethodDef.bodyContext analysis.table.signature m info) []
        { folding := true, argCount := 1 } before.known sc.this W env S ∧
      stmt.exec { sc with rounds := 4 } env S = .ok (.next env') S' ∧ env n = .number 10 ∧
      env' n = .number 7 ∧
      ∃ t, Reaches im.fetch 0 (act.machine [] env S [] before.here) t
        (act.machine [] env' S' [] after.here) := by
  have hrun : ((sinking.check .any).1.toOption.any fun checked =>
      checked.1.methods.any fun method => method.stmtSites.any fun found =>
        method.binding.any fun m => (checked.2.table.methodInfo? m).any fun info =>
          info.params.head?.any fun n =>
            decide (found.1 = [] ∧ found.2.declared ≠ [] ∧ found.2.binds = [] ∧
              info.modifiers.isStatic = true ∧ method.params.length = 1) &&
              (info.params.all fun p => decide (checked.2.table.signature.typeOf p = .int)) &&
              (okAnd (SlotWriter.layout checked.2.table) fun _ laidOut =>
                (found.2.declared.all fun x => decide (laidOut.slot? x = none)) &&
                  okAnd (found.2.gen { folding := true, argCount := 1 }
                    { table := laidOut, nextLocal := linkDataSize }) fun _ after =>
                      decide (after.here = 18) &&
                        (checked.2.builtins.println :: checked.1.methods.filterMap (·.binding)).all
                          fun m => decide (after.table.slot? m = none)) &&
              okAnd (found.2.exec { Scene.idle checked.2.table.signature with rounds := 4 }
                (fun _ => .number 10) {}) fun leave _ =>
                  leave.next?.any fun env => decide (env n = .number 7)) = true := by
    decide +kernel
  obtain ⟨⟨package', analysis⟩, log, hcheck, hrun⟩ := exists_ok_of_any hrun
  obtain ⟨method, hmethod, hrun⟩ := List.any_eq_true.1 hrun
  obtain ⟨⟨locals, stmt⟩, hstmt, hrun⟩ := List.any_eq_true.1 hrun
  obtain ⟨m, hbound, hrun⟩ := (Option.any_eq_true ..).1 hrun
  obtain ⟨info, hinfo, hrun⟩ := (Option.any_eq_true ..).1 hrun
  obtain ⟨n, -, hrun⟩ := (Option.any_eq_true ..).1 hrun
  obtain ⟨hrun, hexec⟩ := Bool.and_eq_true_iff.1 hrun
  obtain ⟨hrun, hgen⟩ := Bool.and_eq_true_iff.1 hrun
  obtain ⟨hfacts, htypes⟩ := Bool.and_eq_true_iff.1 hrun
  obtain ⟨rfl, hdeclared, hbinds, hstatic, hcount⟩ := of_decide_eq_true hfacts
  have hvoid : sinking.avoidsVoid = true := by decide
  have hplain : sinking.plainUpdates = true := by decide
  have htyped : package'.WellTyped true true analysis :=
    wellTyped_of_check hcheck (sinking.disciplined (fun _ => hplain) fun _ => hvoid)
  have hkind : analysis.table.kind? m = some (.method info) :=
    SymbolTable.methodInfo?_eq_some_iff.1 hinfo
  obtain ⟨_, laidOut, hlayout, hgen⟩ := exists_ok_of_okAnd hgen
  obtain ⟨hfree, hgen⟩ := Bool.and_eq_true_iff.1 hgen
  obtain ⟨_, after, hrun, hgen⟩ := exists_ok_of_okAnd hgen
  obtain ⟨hend, hmethods⟩ := Bool.and_eq_true_iff.1 hgen
  have hend : after.here = 18 := of_decide_eq_true hend
  let before : GenState := { table := laidOut, nextLocal := linkDataSize }
  have hbefore : before.Inside analysis [] := htyped.table.inside hlayout _ (by simp)
  have hfree : ∀ x ∈ stmt.declared, before.table.slot? x = none :=
    fun x hmem => of_decide_eq_true (List.all_eq_true.1 hfree x hmem)
  obtain ⟨m', info', after', hbound', hkind', hrun', hconducts⟩ :=
    stmt_conducts hcheck hvoid hplain hmethod hstmt { folding := true, argCount := 1 } hcount.symm
      hbefore rfl hfree
  obtain rfl : m = m' := Option.some.inj (hbound.symm.trans hbound')
  obtain rfl : info = info' := by simpa using hkind.symm.trans hkind'
  obtain ⟨-, rfl⟩ := EStateM.Result.ok.inj (hrun.symm.trans hrun')
  obtain ⟨-, -, hsame, -⟩ := (stmt.gen_yields _ hrun).exists_shape hbefore.noted
  obtain ⟨hplaced, hprovides⟩ : before.Placed after after.idling ∧
      after.idling.Provides analysis.statics (.idle analysis.table.signature) := by
    refine GenState.idles (hsame.trans hbefore.signature) fun other info hother => ?_
    have hmem : other ∈ analysis.builtins.println :: package'.methods.filterMap (·.binding) :=
      List.mem_cons.2 (htyped.complete other info hother)
    exact of_decide_eq_true (List.all_eq_true.1 hmethods other hmem)
  have henv : Valuation.Typed analysis.table.signature [] info.params fun _ => .number 10 := by
    intro p hmem
    have hint := of_decide_eq_true (List.all_eq_true.1 htypes p hmem)
    exact hint ▸ ⟨10, rfl⟩
  have hact : (Activation.alone analysis info.params).At
      (MethodDef.bodyContext analysis.table.signature m info) []
      { folding := true, argCount := 1 } before.known .null [] (fun _ => .number 10) {} :=
    Activation.alone_at hstatic henv (by simp [before])
  obtain ⟨leave, S', hexec, hleave⟩ := exists_ok_of_okAnd hexec
  obtain ⟨env', hnext, hseven⟩ := (Option.any_eq_true ..).1 hleave
  obtain rfl := Leave.next?_eq_some_iff.1 hnext
  obtain ⟨t, _, hreach, rfl, -⟩ := (hconducts _ (.idle analysis.table.signature)
    (.alone analysis info.params) [] (fun _ => .number 10) {} hplaced (by omega) hprovides rfl
    hact).arrives 4 _ _ hexec
  rw [hbinds, List.append_nil] at hreach
  exact ⟨package', analysis, log, method, stmt, before, m, info, after, after.idling, n,
    .idle analysis.table.signature, .alone analysis info.params, [], _, {}, env', S', hcheck, hvoid,
    hplain, hmethod, hstmt, hcount, hbefore, rfl, hdeclared, hfree, hbound, hkind, hrun, hend,
    hplaced, hprovides, rfl, hact, hexec, rfl, of_decide_eq_true hseven, t, hreach⟩

end Package

end SmallJava
