import SmallJava.Proofs.Codegen.Silence
import SmallJava.Proofs.Execution.Pushing

namespace SmallJava

open Machine Exec

/-- Code runs in a method of a well-typed program, with these local variables in force: what it
    needs of the scene, the program and the frame. -/
structure Activation.Settled (act : Activation) (im : Image) (sc : Scene) (Γ : Context)
    (locals : List SymbolId) (site : Site) (known : Dict SymbolId Word) (W : HeapTyping)
    (env : Valuation) (S : Store) : Prop where
  scene : sc.Typed Γ W
  valuation : env.Typed Γ.sig W (Γ.params ++ locals)
  store : S.Typed Γ.sig W
  knows : Γ.Knows (Γ.params ++ locals) env (site.relies known)
  hosts : ∀ deadline start, deadline < start + sc.rounds → act.Hosts im sc Γ deadline start
  frame : im.Frame Γ.params locals (linkDataSize + locals.length)

namespace Activation.Settled

variable {act : Activation} {im : Image} {sc : Scene} {Γ : Context} {locals : List SymbolId}
  {site : Site} {known : Dict SymbolId Word} {W : HeapTyping} {env : Valuation} {S : Store}

theorem faithful (h : act.Settled im sc Γ locals site known W env S) :
    (site.fold known).Faithful sc Γ (Γ.params ++ locals) env :=
  Site.faithful h.scene.sig h.knows

theorem ready (h : act.Settled im sc Γ locals site known W env S) (t : Nat) :
    sc.Ready Γ (Γ.params ++ locals) t W env S t :=
  ⟨h.scene, h.valuation, h.store, Nat.le_refl t⟩

end Activation.Settled

/-- What is known of variables is right for what is generated at a site. -/
theorem GenState.Inside.knows {g : GenState} {analysis : Analysis} {locals vars : List SymbolId}
    (h : g.Inside analysis locals) {Γ : Context} (hsig : Γ.sig = analysis.table.signature)
    {site : Site} {env : Valuation} (hknown : site.inLoop = false → ∀ x ∈ vars, ∀ word,
      g.known.get? x = some word → env x = .ofWord word) :
    Γ.Knows vars env (site.relies g.known) := by
  refine Site.knows_relies fun hloop => ⟨fun x word hget => ?_, hknown hloop⟩
  rw [hsig]
  exact h.known x word hget

/-- In a finished program that keeps the places, a method does what its code needs. -/
theorem GenState.Inside.settled {g : GenState} {analysis : Analysis} {locals : List SymbolId}
    {strict : Bool} {m : SymbolId} {info : MethodInfo} (h : g.Inside analysis locals)
    (hwf : analysis.table.WellFormed strict) (hkind : analysis.table.kind? m = some (.method info))
    (hvoid : analysis.table.signature.VoidFree) {im : Image}
    (hsig : im.signature = analysis.table.signature)
    (hslots : ∀ x d, g.table.slot? x = some d → im.slot? x = some d) {sc : Scene} {act : Activation}
    (hprovides : im.Provides analysis.statics sc) (hstatics : act.statics = analysis.statics)
    {site : Site} {W : HeapTyping} {env : Valuation} {S : Store}
    (hact : act.At (MethodDef.bodyContext analysis.table.signature m info) locals site g.known sc.this
      W env S) :
    act.Settled im sc (MethodDef.bodyContext analysis.table.signature m info) locals site g.known W
      env S where
  scene := ⟨hprovides.sig.trans hsig, fun hinstance => (hact.object hinstance).2,
    hsig ▸ hprovides.typed, fun _ _ _ hkind hstatic => hwf.mem_instanceFields hkind hstatic, hvoid⟩
  valuation := hact.valuation
  store := hact.store
  knows := h.knows rfl hact.known
  hosts := fun deadline start henough => ⟨hsig.symm, hact.params,
    fun hinstance => (hact.object hinstance).1, hstatics ▸ h.stores hwf hsig hslots,
    hstatics ▸ hprovides.answers deadline start, henough⟩
  frame := h.frame hwf hkind hslots

/-- Once its jumps have their target, the code of a condition has its shape wherever it stands. -/
theorem GenState.Placed.condCode {before after patched : GenState} {im : Image} {site : Site}
    {expr : Expr} {when : Bool} {cond : Cond} {target : Nat} (h : before.Placed patched im)
    (hrun : expr.genCond site when before = .ok cond after)
    (hpatch : Gen.patchAllTo cond.labels target after = .ok () patched) (hnoted : before.asm.Noted)
    (hcalls : ∀ note ∈ after.asm.relocations, (im.slot? note.target).isSome) :
    expr.CondCode im (site.fold before.known) when cond.outcome? before.here after.here target := by
  obtain ⟨-, hemits⟩ := Expr.genCond_yields site expr when hrun
  obtain ⟨hhere, -, hclosed⟩ := hemits.closedAt hpatch
  obtain rfl := Gen.patchAllTo_eq_ok_iff.1 hpatch
  obtain ⟨im', hsame, heq, hrealizes⟩ := h.realizes (by simpa using hcalls)
  obtain ⟨⟨target', htarget, hcode⟩, -⟩ := hclosed.shape hnoted im' _ (fun _ => 0) hrealizes
    fun a _ _ => by simp
  rw [← heq]
  exact (hcode target htarget).inMemory (hhere ▸ hsame)

/-- An expression of a well-typed body that is annotated with `boolean` has this type where it
    stands. -/
theorem MethodDef.WellTyped.hasType_boolean {sig : Signature} {method : MethodDef} {m : SymbolId}
    {info : MethodInfo} (h : method.WellTyped sig m info) (hvoid : sig.VoidFree)
    {locals : List SymbolId} {expr : Expr} (hexpr : (locals, expr) ∈ method.exprSites)
    (hbool : expr.annot.ty = some .boolean) :
    expr.HasType (bodyContext sig m info) (info.params ++ locals) .boolean := by
  obtain ⟨τ, hτ, -⟩ := h.hasValue hvoid hexpr
  obtain rfl := Option.some.inj (hτ.annot_ty.symm.trans hbool)
  exact hτ

namespace Package

/-- Code for a condition decides it: in an accepted program in which nothing but a method has the
    type `void`, it can be generated wherever the condition stands, for either outcome to jump on.
    If the outcome is known, nothing is generated, and this is what the condition yields, without an
    effect, wherever what is known of variables is right. Otherwise, when all its open jumps have got
    one target, the code goes there if the evaluation of the condition yields the outcome to jump
    on, and to its end if it yields the other one, with the same effects on static fields, heap and
    output and on nothing else, or it stops with the fault that the evaluation stops with. Methods
    do what the scene says, whatever that is. This is as long as addresses are operands. -/
theorem cond_decides {package package' : Package} {analysis : Analysis} {log : Diagnostic.Log}
    (hcheck : package.check .any = (.ok (package', analysis), log))
    (hvoid : analysis.table.signature.VoidFree) {method : MethodDef}
    (hmethod : method ∈ package'.methods) {locals : List SymbolId} {expr : Expr}
    (hexpr : (locals, expr) ∈ method.exprSites) (hbool : expr.annot.ty = some .boolean) (site : Site)
    (when : Bool) {before : GenState} (hbefore : before.Inside analysis locals) :
    ∃ m info cond after, method.binding = some m ∧ analysis.table.kind? m = some (.method info) ∧
      expr.genCond site when before = .ok cond after ∧
        match cond with
        | .known outcome => after = before ∧
          ∀ (sc : Scene) (W : HeapTyping) (env : Valuation) (S : Store),
            sc.Typed (MethodDef.bodyContext analysis.table.signature m info) W →
            env.Typed analysis.table.signature W (info.params ++ locals) →
            S.Typed analysis.table.signature W →
            (site.inLoop = false → ∀ x ∈ info.params ++ locals, ∀ word,
              before.known.get? x = some word → env x = .ofWord word) →
            expr.eval sc env S = .ok (.ofBool outcome) S
        | .jumps labels => ∀ (target : Nat) (patched : GenState) (im : Image) (sc : Scene)
          (act : Activation) (W : HeapTyping) (env : Valuation) (S : Store) (temps : List Datum),
            target < 0x80000000 → Gen.patchAllTo labels target after = .ok () patched →
            before.Placed patched im → after.here < 0x80000000 → im.Provides analysis.statics sc →
            act.statics = analysis.statics →
            act.At (MethodDef.bodyContext analysis.table.signature m info) locals site before.known
              sc.this W env S →
            Performs im.fetch (act.machine locals env S temps before.here) (expr.eval sc env S)
              fun d S' m' => ∃ outcome : Bool, d = .ofBool outcome ∧
                m' = act.machine locals env S' temps (if outcome = when then target else after.here) := by
  have htyped : package'.WellTyped false false analysis :=
    wellTyped_of_check hcheck (package.disciplined nofun nofun)
  obtain ⟨m, info, hbody⟩ := htyped.methods method hmethod
  have hexpr := hbody.hasType_boolean hvoid hexpr hbool
  have hready := hbefore.ready htyped.table hbody.kind
  obtain ⟨cond, after, hrun, htable, hnotes⟩ := hexpr.runs_genCond site hready when before rfl
  refine ⟨m, info, cond, after, hbody.bound, hbody.kind, hrun, ?_⟩
  cases cond with
  | known outcome =>
    obtain ⟨hsame, hcode⟩ := Expr.genCond_settledBy site expr when hrun
    refine ⟨hsame, fun sc W env S hscene henv hS hknown => ?_⟩
    have hknows : (MethodDef.bodyContext analysis.table.signature m info).Knows
        (info.params ++ locals) env (site.relies before.known) := hbefore.knows rfl hknown
    have hready : sc.Ready (MethodDef.bodyContext analysis.table.signature m info)
        (info.params ++ locals) 0 W env S 0 := ⟨hscene, henv, hS, Nat.le_refl 0⟩
    rw [(hcode before.idling 0 0).eval_of_known hready (Site.faithful hscene.sig hknows) rfl hexpr]
    rfl
  | jumps labels =>
    intro target patched im sc act W env S temps htarget hpatch hplaced hfits hprovides hstatics hact
    have hsame : patched.table = before.table := by
      obtain rfl := Gen.patchAllTo_eq_ok_iff.1 hpatch
      exact htable
    have hsig : im.signature = analysis.table.signature := by
      rw [← hplaced.signature, hsame, hbefore.signature]
    have hslots : ∀ x d, before.table.slot? x = some d → im.slot? x = some d := by
      rw [← hsame]
      exact hplaced.slots
    have hsettled := hbefore.settled htyped.table hbody.kind hvoid hsig hslots hprovides hstatics hact
    have hcode : expr.CondCode im (site.fold before.known) when none before.here after.here target :=
      hplaced.condCode hrun hpatch hbefore.noted (hbefore.calls_placed hnotes hsig hprovides)
    have hfollows : Follows im.fetch 0 1 (act.machine locals env S temps before.here)
        (expr.eval sc env S) fun d S' _ m' => ∃ outcome : Bool, d = .ofBool outcome ∧
          m' = act.machine locals env S' temps (if outcome = when then target else after.here) := by
      refine (hcode.follows (hsettled.hosts 0 1 (by omega)) hsettled.frame hsettled.faithful
        (hsettled.ready 1) hfits htarget rfl hexpr).mono ?_
      rintro d S' t m' - ⟨outcome, hd, -, hm⟩
      exact ⟨outcome, hd, hm⟩
    exact hfollows.performs (hexpr.sound hsettled.scene hact.valuation Ty.boolean_ne_void) hact.store
      (expr.timely_eval hprovides.timely)

end Package

section LaidOut

variable {analysis : Analysis}

/-- What is generated after the layout, with methods that return at once behind it, is a finished
    program, as long as methods have no places yet. -/
theorem GenState.idles {before after : GenState}
    (hsig : after.table.signature = analysis.table.signature)
    (hfree : ∀ m info, analysis.table.kind? m = some (.method info) → after.table.slot? m = none) :
    before.Placed after after.idling ∧
      after.idling.Provides analysis.statics (.idle analysis.table.signature) := by
  refine ⟨GenState.placed_idling fun m info hkind => ?_, ?_⟩
  · rw [← SymbolTable.signature_kind?, hsig] at hkind
    exact hfree m info hkind
  · rw [← hsig]
    exact after.provides_idling analysis.statics

/-- The first method that runs, before anything else is on the stack. -/
def Activation.alone (analysis : Analysis) (params : List SymbolId) : Activation where
  statics := analysis.statics
  below := []
  params
  link := ⟨0, .null, 0⟩
  ob := .null

/-- A static method can be the first one, with any arguments of the right types. -/
theorem Activation.alone_at {m : SymbolId} {info : MethodInfo} {site : Site}
    {known : Dict SymbolId Word} {env : Valuation} (hstatic : info.modifiers.isStatic = true)
    (henv : env.Typed analysis.table.signature [] info.params)
    (hknown : ∀ x ∈ info.params, ∀ word, known.get? x = some word → env x = .ofWord word) :
    (alone analysis info.params).At (MethodDef.bodyContext analysis.table.signature m info) [] site
      known .null [] env {} where
  params := rfl
  object := fun hinstance => absurd (hstatic.symm.trans hinstance) (by simp)
  valuation := by
    rw [List.append_nil]
    exact henv
  store := ⟨rfl, by simp, fun _ _ _ _ _ => .null⟩
  known := fun _ => by
    rw [List.append_nil]
    exact hknown

end LaidOut

namespace Package

/-- A method that tests its parameters:
    `static int limit(boolean open, int n) { if (open && !(n < 1)) return n; return 0; }` -/
def guarding : Package where
  classes := [{
    name := "Main"
    fields := []
    methods := [
      { modifiers := { isStatic := true }, returnType := .int {}, name := "limit"
        params := [{ type := .boolean {}, name := "open" }, { type := .int {}, name := "n" }]
        body := [
          .ifElse {} (.binary {} .and (.ref {} (.ofPath "open"))
            (.unary {} .not (.binary {} .lt (.ref {} (.ofPath "n")) (.int {} 1))))
            (.return {} (some (.ref {} (.ofPath "n")))) none,
          .return {} (some (.int {} 0))] },
      .main [.println (.call {} (.ofPath "limit") [.bool {} true, .int {} 3])]] }]

/-- The condition in the body of `limit` takes six instructions. Where `open` is true and `n` is 0,
    it does not hold, and a jump on this outcome leads to address 9. -/
theorem guarding_decides : ∃ package' analysis log method expr before m info labels after patched im,
    ∃ (sc : Scene) (act : Activation) (W : HeapTyping) (env : Valuation) (S : Store),
    guarding.check .any = (.ok (package', analysis), log) ∧ analysis.table.signature.VoidFree ∧
      method ∈ package'.methods ∧ ([], expr) ∈ method.exprSites ∧ expr.annot.ty = some .boolean ∧
      before.Inside analysis [] ∧ method.binding = some m ∧
      analysis.table.kind? m = some (.method info) ∧
      expr.genCond { folding := true, argCount := 2 } false before = .ok (.jumps labels) after ∧
      after.here = 6 ∧ Gen.patchAllTo labels 9 after = .ok () patched ∧ before.Placed patched im ∧
      im.Provides analysis.statics sc ∧ act.statics = analysis.statics ∧
      act.At (MethodDef.bodyContext analysis.table.signature m info) []
        { folding := true, argCount := 2 } before.known sc.this W env S ∧
      (∃ S', expr.eval sc env S = .ok (.ofBool false) S') ∧
      Performs im.fetch (act.machine [] env S [] before.here) (expr.eval sc env S)
        fun d S' m' => ∃ outcome : Bool, d = .ofBool outcome ∧
          m' = act.machine [] env S' [] (if outcome = false then 9 else after.here) := by
  have hrun : ((guarding.check .any).1.toOption.any fun checked =>
      checked.1.methods.any fun method => method.exprSites.any fun found =>
        method.binding.any fun m => (checked.2.table.methodInfo? m).any fun info =>
          decide (found.1 = [] ∧ found.2.annot.ty = some .boolean ∧ info.modifiers.isStatic = true) &&
            (info.params.map checked.2.table.signature.typeOf == [.boolean, .int]) &&
            (okAnd (SlotWriter.layout checked.2.table) fun _ laidOut =>
              okAnd (found.2.genCond { folding := true, argCount := 2 } false { table := laidOut })
                fun cond after => decide (cond.outcome? = none ∧ after.here = 6)) &&
              okAnd (found.2.eval (.idle checked.2.table.signature)
                (fun x => .ofBool (info.params.head? == some x)) {})
                  fun d _ => decide (d = .ofBool false)) = true := by
    decide +kernel
  obtain ⟨⟨package', analysis⟩, log, hcheck, hrun⟩ := exists_ok_of_any hrun
  obtain ⟨method, hmethod, hrun⟩ := List.any_eq_true.1 hrun
  obtain ⟨⟨locals, expr⟩, hexpr, hrun⟩ := List.any_eq_true.1 hrun
  obtain ⟨m, hbound, hrun⟩ := (Option.any_eq_true ..).1 hrun
  obtain ⟨info, hinfo, hrun⟩ := (Option.any_eq_true ..).1 hrun
  obtain ⟨hrun, heval⟩ := Bool.and_eq_true_iff.1 hrun
  obtain ⟨hrun, hgen⟩ := Bool.and_eq_true_iff.1 hrun
  obtain ⟨hfacts, htypes⟩ := Bool.and_eq_true_iff.1 hrun
  obtain ⟨rfl, hbool, hstatic⟩ := of_decide_eq_true hfacts
  have htyped : package'.WellTyped true true analysis :=
    wellTyped_of_check hcheck (guarding.disciplined (fun _ => by decide) fun _ => by decide)
  have hkind : analysis.table.kind? m = some (.method info) :=
    SymbolTable.methodInfo?_eq_some_iff.1 hinfo
  obtain ⟨_, laidOut, hlayout, hgen⟩ := exists_ok_of_okAnd hgen
  obtain ⟨cond, after, hrun, hgen⟩ := exists_ok_of_okAnd hgen
  obtain ⟨hopen, hend⟩ := of_decide_eq_true hgen
  have hbefore : GenState.Inside { table := laidOut } analysis [] :=
    htyped.table.inside hlayout _ (by simp)
  obtain ⟨m', info', cond', after', hbound', hkind', hrun', hdecides⟩ :=
    cond_decides hcheck htyped.voidFree hmethod hexpr hbool { folding := true, argCount := 2 } false
      hbefore
  obtain rfl : m = m' := Option.some.inj (hbound.symm.trans hbound')
  obtain rfl : info = info' := by simpa using hkind.symm.trans hkind'
  obtain ⟨rfl, rfl⟩ := EStateM.Result.ok.inj (hrun.symm.trans hrun')
  obtain ⟨labels, rfl⟩ : ∃ labels, cond = .jumps labels := by
    cases cond with
    | known => cases hopen
    | jumps labels => exact ⟨labels, rfl⟩
  let patched : GenState := { after with asm := after.asm.patchAllTo labels 9 }
  have hpatch : Gen.patchAllTo labels 9 after = .ok () patched := Gen.patchAllTo_eq_ok_iff.2 rfl
  have hsame : patched.table = laidOut := (Expr.genCond_yields _ expr false hrun).1.table
  obtain ⟨statics, _, hlayout', hlaidOut⟩ := htyped.table.layout
  obtain ⟨-, rfl⟩ := EStateM.Result.ok.inj (hlayout.symm.trans hlayout')
  obtain ⟨hplaced, hprovides⟩ : GenState.Placed { table := laidOut } patched patched.idling ∧
      patched.idling.Provides analysis.statics (.idle analysis.table.signature) :=
    GenState.idles (hsame ▸ hlaidOut.assigned.signature) (hsame ▸ hlaidOut.methods)
  let env : Valuation := fun x => .ofBool (info.params.head? == some x)
  have henv : env.Typed analysis.table.signature [] info.params := by
    intro x hmem
    have hmem : analysis.table.signature.typeOf x ∈ [Ty.boolean, Ty.int] := by
      rw [← eq_of_beq htypes]
      exact List.mem_map_of_mem hmem
    obtain hty | hty : analysis.table.signature.typeOf x = .boolean ∨
        analysis.table.signature.typeOf x = .int := by simpa using hmem
    · exact hty ▸ ⟨_, rfl⟩
    · exact hty ▸ ⟨.ofBool (info.params.head? == some x), rfl⟩
  have hact : (Activation.alone analysis info.params).At
      (MethodDef.bodyContext analysis.table.signature m info) []
      { folding := true, argCount := 2 } .empty .null [] env {} :=
    Activation.alone_at hstatic henv (by simp)
  refine ⟨package', analysis, log, method, expr, { table := laidOut }, m, info, labels, after, patched,
    patched.idling, .idle analysis.table.signature, .alone analysis info.params, [], env, {}, hcheck,
    htyped.voidFree, hmethod, hexpr, hbool, hbefore, hbound, hkind, hrun, hend, hpatch, hplaced,
    hprovides, rfl, hact, ?_,
    hdecides 9 patched _ _ _ [] env {} [] (by decide) hpatch hplaced (by omega) hprovides rfl hact⟩
  obtain ⟨d, S, hvalue, hd⟩ := exists_ok_of_okAnd heval
  obtain rfl := of_decide_eq_true hd
  exact ⟨S, hvalue⟩

end Package

end SmallJava
