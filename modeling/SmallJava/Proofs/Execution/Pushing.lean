import SmallJava.Proofs.Codegen.Locality
import SmallJava.Proofs.Execution.Performing
import SmallJava.Proofs.Progress.Inside
import SmallJava.Proofs.Typing.Sites

namespace SmallJava

open Machine Exec

namespace GenState

/-- The instruction at an address, which has the place of the method if it is a call that was
    noted. -/
def resolved? (g : GenState) (slot? : SymbolId → Option Int) (a : Nat) : Option Instruction :=
  (g.asm.code.get? a).map fun instr =>
    { instr with d := g.asm.finalOperand slot? (fun _ => none) a instr.d }

/-- The code that was generated between two states stands in the finished program. -/
structure Placed (before after : GenState) (im : Image) : Prop where
  signature : after.table.signature = im.signature
  slots : ∀ x d, after.table.slot? x = some d → im.slot? x = some d
  code : ∀ a, before.here ≤ a → a < after.here → im.fetch a = after.resolved? im.slot? a

variable {before after : GenState} {im : Image}

/-- In the finished program, all code that was generated before could stand as well. -/
theorem Placed.realizes (h : before.Placed after im)
    (hcalls : ∀ note ∈ after.asm.relocations, (im.slot? note.target).isSome) :
    ∃ im' : Image, im'.SameOn im.fetch before.here after.here ∧ im'.inMemory im.fetch = im ∧
      after.Realizes im' fun _ => none :=
  ⟨im.inMemory (after.resolved? im.slot?), h.code, rfl, h.signature, h.slots, hcalls, fun _ _ => rfl⟩

/-- What is generated in one step has its shape wherever it stands. -/
theorem Placed.pushCode {site : Site} {expr : Expr} (h : before.Placed after im)
    (hrun : expr.genPush site before = .ok () after) (hnoted : before.asm.Noted)
    (hcalls : ∀ note ∈ after.asm.relocations, (im.slot? note.target).isSome) :
    expr.PushCode im (site.fold before.known) before.here after.here := by
  obtain ⟨im', hsame, heq, hrealizes⟩ := h.realizes hcalls
  obtain ⟨-, hemits⟩ := Expr.genPush_pushes site expr hrun
  obtain ⟨hcode, -⟩ := hemits.shape hnoted im' _ (fun _ => 0) hrealizes fun a _ _ => by simp
  rw [← heq]
  exact hcode.inMemory hsame

end GenState

namespace GenState.Inside

variable {g : GenState} {analysis : Analysis} {locals : List SymbolId} {strict : Bool}
  {m : SymbolId} {info : MethodInfo}

/-- The finished program keeps the layout. -/
theorem stores (h : g.Inside analysis locals) (hwf : analysis.table.WellFormed strict) {im : Image}
    (hsig : im.signature = analysis.table.signature)
    (hslots : ∀ x d, g.table.slot? x = some d → im.slot? x = some d) :
    im.Stores analysis.statics := by
  obtain ⟨statics, laidOut, hlayout, -⟩ := hwf.layout
  exact (hwf.stores hlayout hsig fun x d hslot =>
    hslots x d (h.layout statics laidOut hlayout x d hslot)).2

/-- The generator keeps the variables of the method in the slots of a frame. -/
theorem frame (h : g.Inside analysis locals) (hwf : analysis.table.WellFormed strict) {im : Image}
    (hkind : analysis.table.kind? m = some (.method info))
    (hslots : ∀ x d, g.table.slot? x = some d → im.slot? x = some d) :
    im.Frame info.params locals (linkDataSize + locals.length) := by
  obtain ⟨statics, laidOut, hlayout, hlaidOut⟩ := hwf.layout
  exact ⟨rfl, fun i x hget => hslots x _ (h.layout statics laidOut hlayout x _
    (hlaidOut.params m info hkind i x hget)), fun i x hget => hslots x _ (h.locals i x hget)⟩

/-- Where methods have their places, all calls that were noted lead to one. -/
theorem calls_placed (h : g.Inside analysis locals) {g' : GenState} (hnotes : g.NotesMethods g')
    {im : Image} (hsig : im.signature = analysis.table.signature) {statics : List SymbolId} {sc : Scene}
    (hprovides : im.Provides statics sc) :
    ∀ note ∈ g'.asm.relocations, (im.slot? note.target).isSome := by
  intro note hmem
  have hmethod : g.table.isMethod note.target = true := (hnotes note hmem).elim (h.calls note) id
  rw [← SymbolTable.signature_isMethod, h.signature, ← hsig] at hmethod
  obtain ⟨info, hkind⟩ := im.signature.isMethod_iff.1 hmethod
  obtain ⟨entry, hentry, -⟩ := hprovides.entered note.target info hkind
  rw [hentry]
  rfl

end GenState.Inside

/-- An expression of a well-typed body has a value where it stands. -/
theorem MethodDef.WellTyped.hasValue {sig : Signature} {method : MethodDef} {m : SymbolId}
    {info : MethodInfo} (h : method.WellTyped sig m info) (hvoid : sig.VoidFree)
    {locals : List SymbolId} {expr : Expr} (hexpr : (locals, expr) ∈ method.exprSites) :
    expr.HasValue (bodyContext sig m info) (info.params ++ locals) := by
  obtain ⟨⟨inForce, outer⟩, hsite, hmem⟩ := List.mem_flatMap.1 hexpr
  obtain ⟨inner, hinner, heq⟩ := List.mem_map.1 hmem
  obtain ⟨rfl, rfl⟩ := Prod.mk.inj heq
  have hbody : Stmt.ListWellTyped (bodyContext sig m info) [] method.body := h.body
  exact Expr.HasValue.exprs hvoid outer (hbody.hasValue hvoid _ hsite) inner hinner

namespace Package

/-- The code that pushes an expression computes it: in an accepted program in which nothing but a
    method has the type `void`, the code of every expression can be generated wherever it stands,
    and in the finished program, from its first instruction to its end, it leaves on the stack the
    one word that the evaluation of the expression yields, with the same effects on static fields,
    heap and output and on nothing else, or it stops with the fault that the evaluation stops
    with. Methods do what the scene says, whatever that is. This is as long as addresses are
    operands. -/
theorem push_computes {package package' : Package} {analysis : Analysis} {log : Diagnostic.Log}
    (hcheck : package.check .any = (.ok (package', analysis), log))
    (hvoid : analysis.table.signature.VoidFree) {method : MethodDef}
    (hmethod : method ∈ package'.methods) {locals : List SymbolId} {expr : Expr}
    (hexpr : (locals, expr) ∈ method.exprSites) (site : Site) {before : GenState}
    (hbefore : before.Inside analysis locals) :
    ∃ m info after, method.binding = some m ∧ analysis.table.kind? m = some (.method info) ∧
      expr.genPush site before = .ok () after ∧
        ∀ (im : Image) (sc : Scene) (act : Activation) (W : HeapTyping) (env : Valuation) (S : Store)
          (temps : List Datum),
          before.Placed after im → after.here < 0x80000000 → im.Provides analysis.statics sc →
          act.statics = analysis.statics →
          act.At (MethodDef.bodyContext analysis.table.signature m info) locals site before.known
            sc.this W env S →
            Performs im.fetch (act.machine locals env S temps before.here) (expr.eval sc env S)
              fun d S' m' => m' = act.machine locals env S' (temps ++ [d]) after.here := by
  have htyped : package'.WellTyped false false analysis :=
    wellTyped_of_check hcheck (package.disciplined nofun nofun)
  obtain ⟨m, info, hbody⟩ := htyped.methods method hmethod
  obtain ⟨τ, hτ, hne⟩ := hbody.hasValue hvoid hexpr
  have hready := hbefore.ready htyped.table hbody.kind
  obtain ⟨_, after, hrun, htable, hnotes⟩ := (hτ.runs_genValue site hready).pushed before rfl
  refine ⟨m, info, after, hbody.bound, hbody.kind, hrun, ?_⟩
  intro im sc act W env S temps hplaced hfits hprovides hstatics hact
  have hsig : im.signature = analysis.table.signature := by
    rw [← hplaced.signature, htable, hbefore.signature]
  have hslots : ∀ x d, before.table.slot? x = some d → im.slot? x = some d := by
    rw [← htable]
    exact hplaced.slots
  have hscene : sc.Typed (MethodDef.bodyContext analysis.table.signature m info) W :=
    ⟨hprovides.sig.trans hsig, fun hinstance => (hact.object hinstance).2, hsig ▸ hprovides.typed,
      fun x cls modifiers hkind hstatic => htyped.table.mem_instanceFields hkind hstatic, hvoid⟩
  have hknows : (MethodDef.bodyContext analysis.table.signature m info).Knows
      (info.params ++ locals) env (site.relies before.known) :=
    Site.knows_relies fun hloop => ⟨hbefore.known, hact.known hloop⟩
  have hhost : act.Hosts im sc (MethodDef.bodyContext analysis.table.signature m info) 0 1 :=
    ⟨hsig.symm, hact.params, fun hinstance => (hact.object hinstance).1,
      hstatics ▸ hbefore.stores htyped.table hsig hslots, hstatics ▸ hprovides.answers 0 1,
      by omega⟩
  have hpush : expr.PushCode im (site.fold before.known) before.here after.here :=
    hplaced.pushCode hrun hbefore.noted (hbefore.calls_placed hnotes hsig hprovides)
  have hfollows : Follows im.fetch 0 1 (act.machine locals env S temps before.here)
      (expr.eval sc env S) fun d S' _ m' => m' = act.machine locals env S' (temps ++ [d]) after.here :=
    hpush.follows hhost (hbefore.frame htyped.table hbody.kind hslots)
      (Site.faithful hscene.sig hknows) ⟨hscene, hact.valuation, hact.store, Nat.le_refl 1⟩ hfits
      ⟨τ, hτ, hne⟩
  exact hfollows.performs (hτ.sound hscene hact.valuation hne) hact.store
    (expr.timely_eval hprovides.timely)

end Package

section Idle

variable (sig : Signature)

/-- Methods return at once, with 0 if they are to have a result. -/
def Scene.idle : Scene where
  sig
  this := .null
  rounds := 0
  invoke m _ _ := pure (if (sig.typeOf m).isVoid then none else some .null)

/-- The code of such methods, two words for each. -/
def Signature.idleCode (a : Nat) : Option Instruction :=
  let m : SymbolId := ⟨a / 2⟩
  if a % 2 = 1 then some (.returnWith 1 (sig.paramsOf m).length)
  else if (sig.typeOf m).isVoid then some (.returnWith 0 (sig.paramsOf m).length)
  else some (.literal 0)

variable {sig} {im : Image} {statics : List SymbolId}

/-- Code of two words for each method, which returns at once, provides methods that do nothing. -/
theorem Image.provides_idle (start : Nat)
    (hcode : ∀ a, im.fetch (start + a) = im.signature.idleCode a)
    (hslots : ∀ m info, im.signature.kind? m = some (.method info) →
      im.slot? m = some ((start + 2 * m.index : Nat) : Int)) :
    im.Provides statics (.idle im.signature) where
  sig := rfl
  typed := by
    intro W m info this args _ _ _
    refine sound_pure ?_
    cases hvoid : (im.signature.typeOf m).isVoid with
    | true => exact Ty.isVoid_iff.1 hvoid
    | false =>
      refine ⟨fun heq => ?_, .null⟩
      rw [Ty.isVoid_iff.2 heq] at hvoid
      cases hvoid
  timely := fun _ _ _ => timely_pure _
  entered := by
    intro m info hkind
    refine ⟨_, hslots m info hkind, ?_⟩
    intro act W S this args _ hparams _ _ _
    have hfirst : im.fetch (start + 2 * m.index) =
        if (im.signature.typeOf m).isVoid then some (.returnWith 0 act.params.length)
          else some (.literal 0) := by
      simp [hcode, Signature.idleCode, hparams]
    have hsecond : im.fetch (start + 2 * m.index + 1) = some (.returnWith 1 act.params.length) := by
      rw [Nat.add_assoc, hcode]
      simp [Signature.idleCode, hparams, Nat.add_mod, show (2 * m.index + 1) / 2 = m.index by omega]
    cases hvoid : (im.signature.typeOf m).isVoid with
    | true =>
      rw [hvoid, if_pos rfl] at hfirst
      have hreturn : im.Holds (start + 2 * m.index)
        (.returnWith ([] : List Datum).length act.params.length) := hfirst
      have hreach : Reaches im.fetch 0
          (act.machine [] (.ofArgs act.params args) S ([] ++ []) (start + 2 * m.index)) 1
          (act.resumed S []) := hreturn.reach_return
      simp only [Scene.idle, hvoid, if_true]
      exact ⟨1, _, hreach, rfl⟩
    | false =>
      rw [hvoid, if_neg (by simp)] at hfirst
      have hreturn : im.Holds (start + 2 * m.index + 1)
        (.returnWith [Datum.null].length act.params.length) := hsecond
      have hliteral : im.Holds (start + 2 * m.index) (.literal 0) := hfirst
      have hreach : Reaches im.fetch 1
          (act.machine [] (.ofArgs act.params args) S ([] ++ [.null]) (start + 2 * m.index + 1)) 2
          (act.resumed S [.null]) := hreturn.reach_return
      simp only [Scene.idle, hvoid, Bool.false_eq_true, if_false]
      exact ⟨2, _, hliteral.reach_literal.trans hreach, rfl⟩

end Idle

namespace GenState

/-- The code that was generated so far, followed by methods that return at once. -/
def idling (g : GenState) : Image :=
  let slot? : SymbolId → Option Int := fun x =>
    if g.table.isMethod x then some ((g.here + 2 * x.index : Nat) : Int) else g.table.slot? x
  { fetch := fun a =>
      if a < g.here then g.resolved? slot? a else g.table.signature.idleCode (a - g.here)
    signature := g.table.signature
    slot? }

variable {before after : GenState}

/-- The methods that had no place yet are placed behind the code, each two words after the other. -/
theorem placed_idling (hfree : ∀ m info, after.table.kind? m = some (.method info) →
    after.table.slot? m = none) : before.Placed after after.idling where
  signature := rfl
  slots := by
    intro x d hslot
    refine (if_neg fun hmethod => ?_).trans hslot
    obtain ⟨info, hkind⟩ := after.table.signature.isMethod_iff.1 hmethod
    rw [hfree x info hkind] at hslot
    cases hslot
  code := fun a _ hlt => if_pos hlt

theorem provides_idling (g : GenState) (statics : List SymbolId) :
    g.idling.Provides statics (.idle g.table.signature) := by
  refine Image.provides_idle g.here (fun a => ?_) fun m info hkind => if_pos ?_
  · have hge : ¬ g.here + a < g.here := by omega
    exact (if_neg hge).trans (by rw [Nat.add_sub_cancel_left]; rfl)
  · exact g.table.signature.isMethod_iff.2 ⟨info, hkind⟩

end GenState

namespace Package

/-- A method that adds its parameter to what it returns for it:
    `static int next(int n) { return n + next(n); }` -/
def climbing : Package where
  classes := [{
    name := "Main"
    fields := []
    methods := [
      { modifiers := { isStatic := true }, returnType := .int {}, name := "next"
        params := [{ type := .int {}, name := "n" }]
        body := [.return {} (some (.binary {} .add (.ref {} (.ofPath "n"))
          (.call {} (.ofPath "next") [.ref {} (.ofPath "n")])))] },
      .main [.println (.call {} (.ofPath "next") [.int {} 20])]] }]

/-- Where `n` is known to be 20, the sum in the body of `next` takes four instructions, which leave
    20 on the stack if `next` returns 0. -/
theorem climbing_computes : ∃ package' analysis log method expr before m info
    after im, ∃ (sc : Scene) (act : Activation) (W : HeapTyping) (env : Valuation) (S : Store),
    climbing.check .any = (.ok (package', analysis), log) ∧ analysis.table.signature.VoidFree ∧
      method ∈ package'.methods ∧ ([], expr) ∈ method.exprSites ∧ before.Inside analysis [] ∧
      method.binding = some m ∧ analysis.table.kind? m = some (.method info) ∧
      expr.genPush { folding := true, argCount := 1 } before = .ok () after ∧ after.here = 4 ∧
      before.Placed after im ∧ im.Provides analysis.statics sc ∧ act.statics = analysis.statics ∧
      act.At (MethodDef.bodyContext analysis.table.signature m info) []
        { folding := true, argCount := 1 } before.known sc.this W env S ∧
      (∃ S', expr.eval sc env S = .ok (.number 20) S') ∧
      Performs im.fetch (act.machine [] env S [] before.here) (expr.eval sc env S)
        fun d S' m' => m' = act.machine [] env S' ([] ++ [d]) after.here := by
  have hrun : ((climbing.check .any).1.toOption.any fun checked =>
      checked.1.methods.any fun method => method.exprSites.any fun found =>
        method.binding.any fun m => (checked.2.table.methodInfo? m).any fun info =>
          info.params.head?.any fun n =>
            decide (found.1 = [] ∧ info.params = [n] ∧ info.modifiers.isStatic = true ∧
              checked.2.table.signature.typeOf n = .int) &&
              (okAnd (SlotWriter.layout checked.2.table) fun _ laidOut =>
                okAnd (found.2.genPush { folding := true, argCount := 1 }
                  { table := laidOut, known := Dict.empty.insert n 20 })
                    fun _ after => decide (after.here = 4)) &&
                okAnd (found.2.eval (.idle checked.2.table.signature) (fun _ => .number 20) {})
                  fun d _ => decide (d = .number 20)) = true := by
    decide +kernel
  obtain ⟨⟨package', analysis⟩, log, hcheck, hrun⟩ := exists_ok_of_any hrun
  obtain ⟨method, hmethod, hrun⟩ := List.any_eq_true.1 hrun
  obtain ⟨⟨locals, expr⟩, hexpr, hrun⟩ := List.any_eq_true.1 hrun
  obtain ⟨m, hbound, hrun⟩ := (Option.any_eq_true ..).1 hrun
  obtain ⟨info, hinfo, hrun⟩ := (Option.any_eq_true ..).1 hrun
  obtain ⟨n, -, hrun⟩ := (Option.any_eq_true ..).1 hrun
  obtain ⟨hrun, heval⟩ := Bool.and_eq_true_iff.1 hrun
  obtain ⟨hparams, hgen⟩ := Bool.and_eq_true_iff.1 hrun
  obtain ⟨rfl, hparams, hstatic, hint⟩ := of_decide_eq_true hparams
  have htyped : package'.WellTyped true true analysis :=
    wellTyped_of_check hcheck (climbing.disciplined (fun _ => by decide) fun _ => by decide)
  obtain ⟨statics, laidOut, hlayout, hlaidOut⟩ := htyped.table.layout
  have hsig : laidOut.signature = analysis.table.signature := hlaidOut.assigned.signature
  have hkind : analysis.table.kind? m = some (.method info) :=
    SymbolTable.methodInfo?_eq_some_iff.1 hinfo
  let before : GenState := { table := laidOut, known := Dict.empty.insert n 20 }
  have hbefore : before.Inside analysis [] := by
    refine ⟨hsig, ?_, by simp, ⟨by simp [before], .nil⟩, by simp [before], ?_⟩
    · intro _ _ hlayout' x d hslot
      obtain ⟨-, rfl⟩ := EStateM.Result.ok.inj (hlayout.symm.trans hlayout')
      exact hslot
    · intro x word hget
      rw [Dict.get?_insert] at hget
      split at hget
      next heq =>
        rw [heq]
        exact .inr (htyped.table.kind?_param hkind (by simp [hparams]))
      next => cases hget
  obtain ⟨m', info', after, hbound', hkind', hrun, hcomputes⟩ :=
    push_computes hcheck htyped.voidFree hmethod hexpr { folding := true, argCount := 1 } hbefore
  obtain rfl : m = m' := Option.some.inj (hbound.symm.trans hbound')
  obtain rfl : info = info' := by simpa using hkind.symm.trans hkind'
  have hend : after.here = 4 := by
    obtain ⟨_, laidOut', hlayout', hgen⟩ := exists_ok_of_okAnd hgen
    obtain ⟨-, rfl⟩ := EStateM.Result.ok.inj (hlayout.symm.trans hlayout')
    obtain ⟨_, after', hrun', hgen⟩ := exists_ok_of_okAnd hgen
    obtain ⟨-, rfl⟩ := EStateM.Result.ok.inj (hrun.symm.trans hrun')
    exact of_decide_eq_true hgen
  have htable : after.table = laidOut := (Expr.genPush_pushes _ expr hrun).1.table
  have hplaced : before.Placed after after.idling := GenState.placed_idling fun m info hkind => by
    rw [htable] at hkind ⊢
    rw [← SymbolTable.signature_kind?, hsig] at hkind
    exact hlaidOut.methods m info hkind
  have hprovides : after.idling.Provides analysis.statics (.idle analysis.table.signature) := by
    rw [← hsig, ← htable]
    exact after.provides_idling analysis.statics
  let act : Activation :=
    { statics := analysis.statics, below := [], params := info.params, link := ⟨0, .null, 0⟩
      ob := .null }
  have hact : act.At (MethodDef.bodyContext analysis.table.signature m info) []
      { folding := true, argCount := 1 } before.known .null [] (fun _ => .number 20) {} := by
    refine ⟨rfl, fun hinstance => ?_, fun x hmem => ?_, ⟨rfl, by simp, fun _ _ _ _ _ => .null⟩,
      ?_⟩
    · exact absurd (hstatic.symm.trans hinstance) (by simp)
    · have hmem : x ∈ info.params ++ [] := hmem
      obtain rfl : x = n := by simpa [hparams] using hmem
      have hint : analysis.table.signature.typeOf x = .int := hint
      exact hint.symm ▸ ⟨20, rfl⟩
    · intro _ x _ word hget
      rw [Dict.get?_insert] at hget
      split at hget
      next =>
        obtain rfl := Option.some.inj hget
        rfl
      next => cases hget
  refine ⟨package', analysis, log, method, expr, before, m, info, after, after.idling,
    .idle analysis.table.signature, act, [], fun _ => .number 20, {}, hcheck, htyped.voidFree, hmethod,
    hexpr, hbefore, hbound, hkind, hrun, hend, hplaced, hprovides, rfl, hact, ?_,
    hcomputes _ _ act [] _ {} [] hplaced (by omega) hprovides rfl hact⟩
  obtain ⟨d, S, hvalue, hd⟩ := exists_ok_of_okAnd heval
  obtain rfl : d = .number 20 := of_decide_eq_true hd
  exact ⟨S, hvalue⟩

end Package

end SmallJava
