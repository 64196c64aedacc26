import SmallJava.Proofs.Locals.Watched
import SmallJava.Proofs.Progress.Inside
import SmallJava.Proofs.Typing.StmtSites

namespace SmallJava

/-- Code generation has come to a point of a method where these local variables are in force. The
    next one gets the offset after theirs, and what is still to be declared has no place. -/
structure GenState.Reached (s : GenState) (analysis : Analysis) (locals todo : List SymbolId) :
    Prop where
  inside : s.Inside analysis locals
  next : s.nextLocal = linkDataSize + locals.length
  free : ∀ x ∈ todo, s.table.slot? x = none

namespace GenState.Reached

variable {s s' : GenState} {analysis : Analysis} {locals more todo rest : List SymbolId}
  {x : SymbolId}

theorem weaken (h : s.Reached analysis locals todo) (hsub : rest ⊆ todo) :
    s.Reached analysis locals rest :=
  ⟨h.inside, h.next, fun x hmem => h.free x (hsub hmem)⟩

theorem extend (h : s.Reached analysis locals todo) (hext : s.Extends s') :
    s'.Reached analysis locals todo := by
  refine ⟨h.inside.extend hext, hext.quiet.nextLocal.trans h.next, fun x hmem => ?_⟩
  rw [hext.quiet.table]
  exact h.free x hmem

theorem learn (h : s.Reached analysis locals todo) {word : Word}
    (hx : analysis.table.kind? x = some .localVar ∨ analysis.table.kind? x = some .param) :
    { s with known := s.known.insert x word }.Reached analysis locals todo :=
  ⟨h.inside.learn hx, h.next, h.free⟩

theorem forget (h : s.Reached analysis locals todo) :
    { s with known := s.known.erase x }.Reached analysis locals todo :=
  ⟨h.inside.forget, h.next, h.free⟩

/-- The variable declared next gets the next offset, and is in force then. -/
theorem declare (h : s.Reached analysis locals (x :: todo)) (hnew : x ∉ todo)
    (hkind : analysis.table.kind? x = some .localVar) {table : SymbolTable}
    (hset : s.table.setSlot x s.nextLocal = .ok table) :
    { s with table, nextLocal := s.nextLocal + 1 }.Reached analysis (locals ++ [x]) todo := by
  have hinside : { s with table, nextLocal := s.nextLocal + 1 }.Inside analysis locals :=
    (h.inside.setSlot hset).retrack _ h.inside.known
  have hslot : table.slot? x = some s.nextLocal := by
    refine SymbolTable.slot?_setSlot_self hset ?_
    rw [h.inside.kind?_eq, hkind]
    rfl
  rw [h.next] at hslot
  refine ⟨hinside.append hslot, ?_, fun y hmem => ?_⟩
  · dsimp only
    rw [h.next, List.length_append, List.length_singleton]
    omega
  · have hne : y ≠ x := fun heq => hnew (heq ▸ hmem)
    dsimp only
    rw [SymbolTable.slot?_setSlot_of_ne hset hne]
    exact h.free y (List.mem_cons_of_mem x hmem)

/-- At the end of a block, the offsets of its variables are there for the next ones. -/
theorem release (h : s.Reached analysis (locals ++ more) todo) :
    { s with nextLocal := linkDataSize + locals.length }.Reached analysis locals todo :=
  ⟨h.inside.of_append.retrack _ h.inside.known, rfl, h.free⟩

end GenState.Reached

/-- Where code is generated for a method in this context, everything that it uses has its place. -/
def Context.Ready (Γ : Context) (analysis : Analysis) : Prop :=
  ∀ ⦃g : GenState⦄ ⦃locals : List SymbolId⦄, g.Inside analysis locals →
    g.table.Ready Γ.sig (Γ.params ++ locals)

namespace Gen

variable {α β : Type} {P Q R : GenState → Prop}

/-- Where `P` holds and the first action succeeds, the second does the same, and `Q` holds
    afterwards. -/
def Agrees (P : GenState → Prop) (code code' : Gen α) (Q : GenState → Prop) : Prop :=
  ∀ ⦃s s' : GenState⦄ ⦃a : α⦄, P s → code s = .ok a s' → code' s = .ok a s' ∧ Q s'

/-- Actions in a row agree if the second ones do wherever the first get to. -/
theorem Agrees.bind {code code' : Gen α} {next next' : α → Gen β} (hcode : Agrees P code code' Q)
    (hnext : ∀ a, Agrees Q (next a) (next' a) R) :
    Agrees P (code >>= next) (code' >>= next') R := by
  intro s s' b hP hrun
  obtain ⟨a, s₁, hrun, hrest⟩ := bind_eq_ok_iff.1 hrun
  obtain ⟨hrun', hQ⟩ := hcode hP hrun
  obtain ⟨hrest', hR⟩ := hnext a hQ hrest
  exact ⟨bind_eq_ok_iff.2 ⟨a, s₁, hrun', hrest'⟩, hR⟩

theorem agrees_of {code : Gen α}
    (hcode : ∀ ⦃s s' : GenState⦄ ⦃a : α⦄, P s → code s = .ok a s' → Q s') : Agrees P code code Q :=
  fun _ _ _ hP hrun => ⟨hrun, hcode hP hrun⟩

theorem Agrees.afterBound {binding : Option SymbolId} {span : Span}
    {x : SymbolId} {next next' : SymbolId → Gen β} (hbound : binding = some x)
    (hnext : Agrees P (next x) (next' x) Q) :
    Agrees P (bound binding span >>= next) (bound binding span >>= next') Q := by
  subst hbound
  exact hnext

section Reached

variable {analysis : Analysis} {locals more todo : List SymbolId}

/-- What may be done with any declarations. -/
theorem agrees_of_appends {code : Gen α} (hcode : ∀ table, Appends table code) :
    Agrees (·.Reached analysis locals todo) code code (·.Reached analysis locals todo) :=
  agrees_of fun s _ _ hs hrun => hs.extend (hcode s.table rfl hrun)

theorem agrees_skip {rest : List SymbolId} {a : α} (hsub : rest ⊆ todo) :
    Agrees (·.Reached analysis locals todo) (pure a) (pure a) (·.Reached analysis locals rest) := by
  refine agrees_of fun s s' b hs hrun => ?_
  obtain ⟨-, rfl⟩ := pure_eq_ok_iff.1 hrun
  exact hs.weaken hsub

/-- More may be without a place before. -/
theorem Agrees.after {rest : List SymbolId} {code code' : Gen α}
    (hcode : Agrees (·.Reached analysis locals rest) code code' Q) (hsub : rest ⊆ todo) :
    Agrees (·.Reached analysis locals todo) code code' Q :=
  fun _ _ _ hs hrun => hcode (hs.weaken hsub) hrun

/-- Less may be asked for afterwards. -/
theorem Agrees.upTo {rest : List SymbolId} {code code' : Gen α}
    (hcode : Agrees P code code' (·.Reached analysis locals todo)) (hsub : rest ⊆ todo) :
    Agrees P code code' (·.Reached analysis locals rest) :=
  fun _ _ _ hP hrun => (hcode hP hrun).imp_right (·.weaken hsub)

/-- What may be done where everything in force has its place. -/
theorem agrees_of_ready {Γ : Context} (hΓ : Γ.Ready analysis) {code : Gen α}
    (hcode : ∀ table : SymbolTable, table.Ready Γ.sig (Γ.params ++ locals) → Appends table code) :
    Agrees (·.Reached analysis locals todo) code code (·.Reached analysis locals todo) :=
  agrees_of fun _ _ _ hs hrun => hs.extend (hcode _ (hΓ hs.inside) rfl hrun)

theorem Agrees.afterLine {line : Nat} {code code' : Gen Unit}
    (hcode : Agrees (·.Reached analysis locals todo) code code' Q) :
    Agrees (·.Reached analysis locals todo) (do emit (·.setLine line); code)
      (do emit (·.setLine line); code') Q :=
  (agrees_of_appends fun _ => appends_setLine).bind fun _ => hcode

/-- A declaration puts its variable in force. -/
theorem declare_reached {Γ : Context} (hΓ : Γ.Ready analysis) {var : LocalDef} {init : Gen Value}
    {x : SymbolId} (hbound : var.binding = some x) (hkind : Γ.sig.kind? x = some .localVar)
    (hnew : x ∉ todo)
    (hinit : ∀ table : SymbolTable, table.Ready Γ.sig (Γ.params ++ locals) → Appends table init) :
    Agrees (·.Reached analysis locals (x :: todo)) (declare var init) (declare var init)
      (·.Reached analysis (locals ++ [x]) todo) := by
  refine agrees_of fun s s' u hs hrun => ?_
  have hkind : analysis.table.kind? x = some .localVar := by
    rw [← hs.inside.kind?_eq, (hΓ hs.inside).kind?_eq, hkind]
  obtain ⟨y, _, hname, hrun⟩ := bind_eq_ok_iff.1 hrun
  obtain ⟨hbound', rfl⟩ := bound_eq_ok_iff.1 hname
  obtain rfl : x = y := Option.some.inj (hbound.symm.trans hbound')
  obtain ⟨_, _, hget, hrun⟩ := bind_eq_ok_iff.1 hrun
  obtain ⟨rfl, rfl⟩ := get_eq_ok_iff.1 hget
  obtain ⟨_, _, hset, hrun⟩ := bind_eq_ok_iff.1 hrun
  obtain ⟨table, htable, rfl⟩ := setSlot_eq_ok_iff.1 hset
  obtain ⟨_, s₁, hmodify, hrun⟩ := bind_eq_ok_iff.1 hrun
  obtain rfl := modify_eq_ok_iff.1 hmodify
  have hreached := hs.declare hnew hkind htable
  obtain ⟨value, s₂, hvalue, hrun⟩ := bind_eq_ok_iff.1 hrun
  have hready : table.Ready Γ.sig (Γ.params ++ locals) := hΓ hreached.inside.of_append
  have hreached := hreached.extend (hinit table hready rfl hvalue)
  cases value with
  | known word =>
    obtain ⟨_, s₃, hliteral, hlearn⟩ := bind_eq_ok_iff.1 hrun
    have hreached := hreached.extend (appends_instruction rfl hliteral)
    obtain rfl := modify_eq_ok_iff.1 hlearn
    exact hreached.learn (.inl hkind)
  | onStack =>
    obtain rfl := modify_eq_ok_iff.1 hrun
    exact hreached.forget

/-- Assignments that are tracked go to variables of methods. -/
theorem kind_of_destination {target : Reference} {d : Int} {s s' : GenState}
    (hrun : target.destination s = .ok (.register .lb d) s') : ∃ x, target.binding = some x ∧
      (s.table.kind? x = some .localVar ∨ s.table.kind? x = some .param) := by
  cases target with
  | this annot => cases hrun
  | ident annot name =>
    obtain ⟨x, _, hname, hrun⟩ := bind_eq_ok_iff.1 hrun
    obtain ⟨hbound, rfl⟩ := bound_eq_ok_iff.1 hname
    obtain ⟨⟨r, slot⟩, _, hplace, hrun⟩ := bind_eq_ok_iff.1 hrun
    obtain ⟨hbase, -, rfl⟩ := place_eq_ok_iff.1 hplace
    obtain ⟨hsame, -⟩ := pure_eq_ok_iff.1 hrun
    obtain ⟨rfl, -⟩ := Destination.register.inj hsame
    refine ⟨x, hbound, ?_⟩
    obtain ⟨kind, hkind, hbase⟩ := Option.bind_eq_some_iff.1 hbase
    rw [hkind]
    cases kind with
    | localVar => exact .inl rfl
    | param => exact .inr rfl
    | field cls modifiers => cases hstatic : modifiers.isStatic <;> simp [SymbolKind.base?, hstatic] at hbase
    | cls | method | arrayLength => cases hbase
  | member annot owner name =>
    obtain ⟨x, _, hname, hrun⟩ := bind_eq_ok_iff.1 hrun
    obtain ⟨-, rfl⟩ := bound_eq_ok_iff.1 hname
    obtain ⟨_, _, htable, hrun⟩ := bind_eq_ok_iff.1 hrun
    obtain ⟨rfl, rfl⟩ := table_eq_ok_iff.1 htable
    split at hrun
    next =>
      obtain ⟨slot, _, -, hrun⟩ := bind_eq_ok_iff.1 hrun
      split at hrun
      next => cases (pure_eq_ok_iff.1 hrun).1
      next =>
        split at hrun
        next => cases (pure_eq_ok_iff.1 hrun).1
        next =>
          obtain ⟨_, _, -, hrun⟩ := bind_eq_ok_iff.1 hrun
          obtain ⟨_, _, -, hrun⟩ := bind_eq_ok_iff.1 hrun
          cases (pure_eq_ok_iff.1 hrun).1
    next => cases hrun

/-- Code generation may remember or forget what an assignment says of a variable. -/
theorem track_reached {site : Site} {target : Reference} {x : SymbolId} {value : Value}
    (hbound : target.binding = some x)
    (hkind : analysis.table.kind? x = some .localVar ∨ analysis.table.kind? x = some .param) :
    Agrees (·.Reached analysis locals todo) (track site target value) (track site target value)
      (·.Reached analysis locals todo) := by
  refine agrees_of fun s s' u hs hrun => ?_
  unfold track at hrun
  rw [hbound] at hrun
  cases value with
  | known word =>
    dsimp only at hrun
    split at hrun
    next =>
      obtain rfl := modify_eq_ok_iff.1 hrun
      exact hs.learn hkind
    next =>
      obtain rfl := modify_eq_ok_iff.1 hrun
      exact hs.forget
  | onStack =>
    obtain rfl := modify_eq_ok_iff.1 hrun
    exact hs.forget

/-- An assignment appends code and changes what is known of its target. -/
theorem assign_reached {Γ : Context} (hΓ : Γ.Ready analysis) {site : Site} {target : Reference}
    {value : Gen Value} (htarget : ∀ table : SymbolTable, table.Ready Γ.sig (Γ.params ++ locals) →
      Appends table target.destination)
    (hvalue : ∀ table : SymbolTable, table.Ready Γ.sig (Γ.params ++ locals) → Appends table value) :
    Agrees (·.Reached analysis locals todo) (assign site target value) (assign site target value)
      (·.Reached analysis locals todo) := by
  refine agrees_of fun s s' u hs hrun => ?_
  obtain ⟨destination, s₁, hdestination, hrun⟩ := bind_eq_ok_iff.1 hrun
  have hs₁ := hs.extend (htarget s.table (hΓ hs.inside) rfl hdestination)
  obtain ⟨found, s₂, hfound, hrun⟩ := bind_eq_ok_iff.1 hrun
  have hs₂ := hs₁.extend (hvalue s₁.table (hΓ hs₁.inside) rfl hfound)
  obtain ⟨_, s₃, hpushed, hrun⟩ := bind_eq_ok_iff.1 hrun
  have hs₃ := hs₂.extend (appends_pure.pushed rfl hpushed)
  cases destination with
  | field => exact hs₃.extend (appends_instruction rfl hrun)
  | register r d =>
    obtain ⟨_, s₄, hstore, htrack⟩ := bind_eq_ok_iff.1 hrun
    have hs₄ := hs₃.extend (appends_instruction rfl hstore)
    by_cases hframe : r = .lb
    · subst hframe
      rw [if_pos rfl] at htrack
      obtain ⟨x, hbound, hkind⟩ := kind_of_destination hdestination
      rw [hs.inside.kind?_eq] at hkind
      exact (track_reached hbound hkind hs₄ htrack).2
    · rw [if_neg hframe] at htrack
      obtain ⟨-, rfl⟩ := pure_eq_ok_iff.1 htrack
      exact hs₄

/-- After the end of a block those variables are in force that were so before it. -/
theorem release_reached {rest : List SymbolId} {code code' : Gen Unit}
    (hcode : Agrees (·.Reached analysis locals todo) code code'
      (·.Reached analysis (locals ++ more) rest)) :
    Agrees (·.Reached analysis locals todo)
      (do let mark := (← get).nextLocal; code; release mark)
      (do let mark := (← get).nextLocal; code'; release mark) (·.Reached analysis locals rest) := by
  intro s s' u hs hrun
  obtain ⟨_, _, hget, hrun⟩ := bind_eq_ok_iff.1 hrun
  obtain ⟨rfl, rfl⟩ := get_eq_ok_iff.1 hget
  obtain ⟨_, s₁, hrun, hrelease⟩ := bind_eq_ok_iff.1 hrun
  obtain ⟨hrun', hs₁⟩ := hcode hs hrun
  refine ⟨bind_eq_ok_iff.2 ⟨s, s, rfl, bind_eq_ok_iff.2 ⟨_, s₁, hrun', hrelease⟩⟩, ?_⟩
  obtain ⟨_, _, hget, hrelease⟩ := bind_eq_ok_iff.1 hrelease
  obtain ⟨rfl, rfl⟩ := get_eq_ok_iff.1 hget
  obtain ⟨_, s₂, hpop, hmodify⟩ := bind_eq_ok_iff.1 hrelease
  obtain rfl := modify_eq_ok_iff.1 hmodify
  rw [hs.next]
  exact (hs₁.extend (appends_pop rfl hpop)).release

/-- The branches are generated one after the other, if not only one of them is. -/
theorem Agrees.ifElse {site : Site} {cond : Bool → Gen Cond} {onTrue onTrue' : Site → Gen Unit}
    {onFalse onFalse' : Option (Site → Gen Unit)} {mid rest : List SymbolId}
    (hcond : Agrees (·.Reached analysis locals todo) (cond false) (cond false)
      (·.Reached analysis locals todo))
    (hTrue : ∀ site, Agrees (·.Reached analysis locals todo) (onTrue site) (onTrue' site)
      (·.Reached analysis locals mid))
    (hFalse : Option.Rel (fun code code' => ∀ site, Agrees (·.Reached analysis locals mid)
      (code site) (code' site) (·.Reached analysis locals rest)) onFalse onFalse')
    (hmid : mid ⊆ todo) (hrest : rest ⊆ mid) :
    Agrees (·.Reached analysis locals todo) (Gen.ifElse site cond onTrue onFalse)
      (Gen.ifElse site cond onTrue' onFalse') (·.Reached analysis locals rest) := by
  refine hcond.bind fun found => ?_
  cases hFalse with
  | none =>
    match found with
    | .known true => exact (hTrue site).upTo hrest
    | .known false => exact agrees_skip (List.Subset.trans hrest hmid)
    | .jumps toElse =>
      refine (hTrue site.branch).bind fun _ => ?_
      exact (agrees_of_appends fun _ => appends_patchAll).upTo hrest
  | some hFalse =>
    match found with
    | .known true => exact (hTrue site).upTo hrest
    | .known false => exact (hFalse site).after hmid
    | .jumps toElse =>
      refine (hTrue site.branch).bind fun _ => ?_
      refine (agrees_of_appends fun _ => appends_jump).bind fun done => ?_
      refine (agrees_of_appends fun _ => appends_patchAll).bind fun _ => ?_
      exact (hFalse site.branch).bind fun _ => agrees_of_appends fun _ => appends_patch

/-- The body comes before the update. -/
theorem Agrees.loop (line : Nat) {cond : Bool → Gen Cond} {body body' update update' : Gen Unit}
    {mid rest : List SymbolId}
    (hcond : ∀ when todo, Agrees (·.Reached analysis locals todo) (cond when) (cond when)
      (·.Reached analysis locals todo))
    (hbody : Agrees (·.Reached analysis locals todo) body body' (·.Reached analysis locals mid))
    (hupdate : Agrees (·.Reached analysis locals mid) update update' (·.Reached analysis locals rest))
    (hsub : rest ⊆ todo) :
    Agrees (·.Reached analysis locals todo) (Gen.loop line cond body update)
      (Gen.loop line cond body' update') (·.Reached analysis locals rest) := by
  have hrounds : ∀ exits, Agrees (·.Reached analysis locals todo) (rounds line cond body update exits)
      (rounds line cond body' update' exits) (·.Reached analysis locals rest) := by
    intro exits
    refine (agrees_of_appends fun _ => appends_here).bind fun start => ?_
    refine hbody.bind fun _ => ?_
    refine hupdate.bind fun _ => ?_
    refine (agrees_of_appends fun _ => appends_setLine).bind fun _ => ?_
    refine (hcond true rest).bind fun back => ?_
    refine (agrees_of_appends fun _ => appends_backTo back).bind fun _ => ?_
    exact agrees_of_appends fun _ => appends_patchAll
  refine (hcond false todo).bind fun found => ?_
  match found with
  | .known false => exact agrees_skip hsub
  | .known true => exact hrounds []
  | .jumps exits => exact hrounds exits

end Reached

end Gen

/-- The watcher finds nothing wrong before one of these statements, nor after it, where everything
    is in its place. -/
structure Watcher.Approves (watcher : Watcher) (analysis : Analysis)
    (sites : List (List SymbolId × Stmt)) : Prop where
  enter : ∀ ⦃locals : List SymbolId⦄ ⦃stmt : Stmt⦄, (locals, stmt) ∈ sites → ∀ ⦃s : GenState⦄,
    s.Reached analysis locals stmt.declared → watcher.enter stmt locals s = .ok () s
  leave : ∀ ⦃locals : List SymbolId⦄ ⦃stmt : Stmt⦄, (locals, stmt) ∈ sites → ∀ ⦃s : GenState⦄,
    s.Reached analysis (locals ++ stmt.binds) [] →
      watcher.leave stmt (linkDataSize + locals.length) s = .ok () s

theorem Watcher.Approves.weaken {watcher : Watcher} {analysis : Analysis}
    {sites sites' : List (List SymbolId × Stmt)} (h : watcher.Approves analysis sites)
    (hsub : sites' ⊆ sites) : watcher.Approves analysis sites' :=
  ⟨fun _ _ hmem => h.enter (hsub hmem), fun _ _ hmem => h.leave (hsub hmem)⟩

namespace Stmt

open Gen

variable {Γ : Context} {analysis : Analysis} {watcher : Watcher}

/-- Around the code of a statement the watcher finds nothing wrong. -/
theorem agrees_around {stmt : Stmt} {locals todo : List SymbolId}
    (hwatcher : watcher.Approves analysis (stmt.stmtSites locals))
    (hsite : (locals, stmt) ∈ stmt.stmtSites locals) {code code' : Gen Unit}
    (hcode : Agrees (·.Reached analysis locals (stmt.declared ++ todo)) code code'
      (·.Reached analysis (locals ++ stmt.binds) todo)) :
    Agrees (·.Reached analysis locals (stmt.declared ++ todo)) code
      (watcher.around stmt locals code') (·.Reached analysis (locals ++ stmt.binds) todo) := by
  intro s s' u hs hrun
  obtain ⟨hrun', hs'⟩ := hcode hs hrun
  have henter : watcher.enter stmt locals s = .ok () s :=
    hwatcher.enter hsite (hs.weaken (List.subset_append_left _ _))
  have hleave : watcher.leave stmt s.nextLocal s' = .ok () s' := by
    rw [hs.next]
    exact hwatcher.leave hsite (hs'.weaken (List.nil_subset _))
  refine ⟨?_, hs'⟩
  exact bind_eq_ok_iff.2 ⟨(), s, henter, bind_eq_ok_iff.2 ⟨s, s, rfl,
    bind_eq_ok_iff.2 ⟨u, s', hrun', hleave⟩⟩⟩

mutual

/-- The code of a well-typed statement leads from where it is reached to where its variables are in
    force as well, and in between to all statements in it, each with its own variables. A watcher
    that finds nothing wrong there does not change the code. -/
theorem WellTyped.agrees_gen (hΓ : Γ.Ready analysis) : {stmt : Stmt} → {locals todo : List SymbolId} →
    stmt.WellTyped Γ locals → stmt.plainUpdates = true → (stmt.declared ++ todo).Nodup →
      watcher.Approves analysis (stmt.stmtSites locals) → (site : Site) →
        Agrees (·.Reached analysis locals (stmt.declared ++ todo)) (stmt.gen site)
          (stmt.genWatched watcher site locals) (·.Reached analysis (locals ++ stmt.binds) todo)
  | block span stmts, locals, todo => by
    intro h hplain hnodup hwatcher site
    unfold gen genWatched
    cases h with
    | block hstmts =>
      refine agrees_around hwatcher List.mem_cons_self (Agrees.afterLine ?_)
      obtain ⟨more, hstmts⟩ := hstmts.agrees_genAll hΓ hplain hnodup
        (hwatcher.weaken (List.subset_cons_self _ _)) site
      simpa [binds, declared] using release_reached hstmts
  | varDecl span var init, locals, todo => by
    intro h _ hnodup hwatcher site
    unfold gen genWatched
    cases h with
    | @varDecl _ _ _ _ x _ hbound hkind _ hinit =>
      refine agrees_around hwatcher (by simp [stmtSites]) (Agrees.afterLine ?_)
      have hdeclared : (varDecl span var init).declared = [x] := by simp [declared, hbound]
      have hbinds : (varDecl span var init).binds = [x] := by simp [binds, hbound]
      rw [hdeclared] at hnodup ⊢
      rw [hbinds]
      exact declare_reached hΓ hbound hkind (List.nodup_cons.1 hnodup).1
        fun table hready => hinit.appends_genValue hready site
  | assign span target value, locals, todo => by
    intro h _ _ hwatcher site
    unfold gen genWatched
    cases h with
    | assign htarget hplace hvalue _ =>
      refine agrees_around hwatcher (by simp [stmtSites]) (Agrees.afterLine ?_)
      simpa [binds, declared] using assign_reached hΓ
        (fun table hready => htarget.appends_destination hready hplace)
        fun table hready => hvalue.appends_genValue hready site
  | indexAssign span target subscript value, locals, todo => by
    intro h _ _ hwatcher site
    unfold gen genWatched
    cases h with
    | indexAssign htarget hsubscript hvalue _ =>
      refine agrees_around hwatcher (by simp [stmtSites]) (Agrees.afterLine ?_)
      simpa [binds, declared] using agrees_of_ready hΓ fun table hready =>
        (htarget.appends_push hready).assignElement (hsubscript.appends_genPush hready site)
          (hvalue.appends_genPush hready site)
  | call span callee args, locals, todo => by
    intro h _ _ hwatcher site
    unfold gen genWatched
    cases h with
    | call hcallee hargs =>
      refine agrees_around hwatcher (by simp [stmtSites]) (Agrees.afterLine ?_)
      simpa [binds, declared] using agrees_of_ready hΓ fun table hready =>
        (hargs.appends_call hready site hcallee).callFor
  | .return span value, locals, todo => by
    intro h _ _ hwatcher site
    unfold gen genWatched
    refine agrees_around hwatcher (by simp [stmtSites]) (Agrees.afterLine ?_)
    have hvalue : ∀ table : SymbolTable, table.Ready Γ.sig (Γ.params ++ locals) →
        Appends table (returnWith site (value.map (·.genPush site))) := by
      intro table hready
      cases h with
      | «return» => exact appends_returnWith (by simp)
      | returnValue _ hvalue _ =>
        refine appends_returnWith ?_
        rintro code ⟨⟩
        exact hvalue.appends_genPush hready site
    simpa [binds, declared] using agrees_of_ready hΓ hvalue
  | ifElse span cond onTrue onFalse, locals, todo => by
    intro h hplain hnodup hwatcher site
    cases h with
    | ifElse hcond hTrue hFalse =>
      obtain ⟨hplain, hplain'⟩ := Bool.and_eq_true_iff.1 hplain
      rw [declared, List.append_assoc] at hnodup
      have hcond : Agrees (·.Reached analysis locals (onTrue.declared ++ (optionDeclared onFalse ++ todo)))
          (cond.genCond site false) (cond.genCond site false)
          (·.Reached analysis locals (onTrue.declared ++ (optionDeclared onFalse ++ todo))) :=
        agrees_of_ready hΓ fun table hready => hcond.appends_genCond hready site false
      have hTrue := hTrue.agrees_branch hΓ hplain hnodup (hwatcher.weaken (by simp [stmtSites]))
      have hmid := List.subset_append_right onTrue.declared (optionDeclared onFalse ++ todo)
      have hrest := List.subset_append_right (optionDeclared onFalse) todo
      have hsite : (locals, ifElse span cond onTrue onFalse) ∈
          (ifElse span cond onTrue onFalse).stmtSites locals := by simp [stmtSites]
      cases onFalse with
      | none =>
        unfold gen genWatched
        refine agrees_around hwatcher hsite (Agrees.afterLine ?_)
        rw [declared, List.append_assoc, binds_of_plain rfl, List.append_nil]
        exact Agrees.ifElse hcond hTrue .none hmid hrest
      | some onFalse =>
        have hFalse := (hFalse onFalse rfl).agrees_branch hΓ hplain' (List.nodup_append'.1 hnodup).2.1
          (hwatcher.weaken (by simp [stmtSites, optionStmtSites]))
        unfold gen genWatched
        refine agrees_around hwatcher hsite (Agrees.afterLine ?_)
        rw [declared, List.append_assoc, binds_of_plain rfl, List.append_nil]
        exact Agrees.ifElse hcond hTrue (.some hFalse) hmid hrest
  | .while span cond body, locals, todo => by
    intro h hplain hnodup hwatcher site
    unfold gen genWatched
    cases h with
    | «while» hcond hbody =>
      refine agrees_around hwatcher (by simp [stmtSites]) (Agrees.afterLine ?_)
      have hbody := hbody.agrees_branch hΓ hplain hnodup
        (hwatcher.weaken (List.subset_cons_self _ _)) site.loop
      simpa [binds, declared] using Agrees.loop span.line
        (fun when todo => agrees_of_ready hΓ fun table hready =>
          hcond.appends_genCond hready site.loop when)
        hbody (agrees_skip (List.Subset.refl _)) (List.subset_append_right _ _)
  | .for span init cond update body, locals, todo => by
    intro h hplain hnodup hwatcher site
    unfold gen genWatched
    cases h with
    | «for» hinit hcond hupdate hbody =>
      refine agrees_around hwatcher (by simp [stmtSites]) (Agrees.afterLine ?_)
      obtain ⟨hplainInit, hdeclares, hplainUpdate, hplainBody⟩ := plain_of_plainUpdates hplain
      have hbinds : optionBinds update = [] := optionBinds_of_plain hdeclares
      rw [stmtSites, hbinds, List.append_nil] at hwatcher
      rw [hbinds, List.append_nil] at hbody
      rw [declared, List.append_assoc] at hnodup ⊢
      have hinit := agrees_genOption hΓ hinit hplainInit hnodup (hwatcher.weaken (by simp)) site
      -- The body is generated before the update, and declares its variables first.
      have horder : ((optionDeclared update ++ body.declared) ++ todo).Perm
          (body.declared ++ (optionDeclared update ++ todo)) := by
        rw [← List.append_assoc]
        exact List.perm_append_comm.append_right todo
      have hnodup := horder.nodup (List.nodup_append'.1 hnodup).2.1
      have hbody := hbody.agrees_branch hΓ hplainBody hnodup
        (hwatcher.weaken fun _ hmem => by simp [hmem]) site.loop
      have hupdate := agrees_genOption hΓ hupdate hplainUpdate (List.nodup_append'.1 hnodup).2.1
        (hwatcher.weaken fun _ hmem => by simp [hmem]) site.loop
      rw [hbinds, List.append_nil] at hupdate
      have hcond : ∀ when todo, Agrees (·.Reached analysis (locals ++ optionBinds init) todo)
          (loopCond site.loop cond when) (loopCond site.loop cond when)
          (·.Reached analysis (locals ++ optionBinds init) todo) := fun when todo =>
        agrees_of_ready hΓ fun table hready => appends_loopCond hready site.loop hcond when
      have hsub : todo ⊆ body.declared ++ (optionDeclared update ++ todo) := fun x hmem => by simp [hmem]
      have hloop := Agrees.loop span.line hcond hbody hupdate hsub
      have hloop := hloop.after horder.symm.subset
      simpa [binds] using release_reached (hinit.bind fun _ => hloop)

/-- A branch gives back the variables that it declares, and may be watched. -/
theorem BranchWellTyped.agrees_branch (hΓ : Γ.Ready analysis) : {stmt : Stmt} → {locals todo : List SymbolId} →
    stmt.BranchWellTyped Γ locals → stmt.plainUpdates = true → (stmt.declared ++ todo).Nodup →
      watcher.Approves analysis (stmt.stmtSites locals) → (site : Site) →
        Agrees (·.Reached analysis locals (stmt.declared ++ todo)) (stmt.gen site)
          (stmt.genWatched watcher site locals) (·.Reached analysis locals todo)
  | stmt, locals, todo => by
    intro h hplain hnodup hwatcher site
    have hstmt := h.typed.agrees_gen hΓ hplain hnodup hwatcher site
    rwa [binds_of_plain h.plain, List.append_nil] at hstmt

/-- A statement that may be left out keeps in force what it declares, and may be watched. -/
theorem agrees_genOption (hΓ : Γ.Ready analysis) : {stmt : Option Stmt} → {locals todo : List SymbolId} →
    (∀ s ∈ stmt, s.WellTyped Γ locals) → optionPlainUpdates stmt = true →
      (optionDeclared stmt ++ todo).Nodup →
        watcher.Approves analysis (optionStmtSites locals stmt) → (site : Site) →
          Agrees (·.Reached analysis locals (optionDeclared stmt ++ todo)) (genOption site stmt)
            (genOptionWatched watcher site locals stmt)
            (·.Reached analysis (locals ++ optionBinds stmt) todo)
  | none, locals, todo => by
    intro _ _ _ _ site
    unfold genOption genOptionWatched
    simpa [optionBinds, optionDeclared] using agrees_skip (List.Subset.refl _)
  | some stmt, locals, todo => by
    intro h hplain hnodup hwatcher site
    unfold genOption genOptionWatched
    exact (h stmt rfl).agrees_gen hΓ hplain hnodup hwatcher site

/-- Statements in a row keep in force what they declare themselves, and may be watched. -/
theorem ListWellTyped.agrees_genAll (hΓ : Γ.Ready analysis) : {stmts : List Stmt} → {locals todo : List SymbolId} →
    ListWellTyped Γ locals stmts → allPlainUpdates stmts = true → (allDeclared stmts ++ todo).Nodup →
      watcher.Approves analysis (allStmtSites locals stmts) → (site : Site) →
        ∃ more, Agrees (·.Reached analysis locals (allDeclared stmts ++ todo)) (genAll site stmts)
          (genAllWatched watcher site locals stmts) (·.Reached analysis (locals ++ more) todo)
  | [], locals, todo => by
    intro _ _ _ _ site
    unfold genAll genAllWatched
    exact ⟨[], by simpa [allDeclared] using agrees_skip (List.Subset.refl _)⟩
  | stmt :: rest, locals, todo => by
    intro h hplain hnodup hwatcher site
    unfold genAll genAllWatched
    cases h with
    | cons hstmt hrest =>
      obtain ⟨hplain, hplain'⟩ := Bool.and_eq_true_iff.1 hplain
      rw [allDeclared, List.append_assoc] at hnodup
      obtain ⟨more, hrest⟩ := hrest.agrees_genAll hΓ hplain' (List.nodup_append'.1 hnodup).2.1
        (hwatcher.weaken (List.subset_append_right _ _)) site
      refine ⟨stmt.binds ++ more, ?_⟩
      rw [allDeclared, List.append_assoc, ← List.append_assoc locals]
      exact (hstmt.agrees_gen hΓ hplain hnodup (hwatcher.weaken (List.subset_append_left _ _)) site).bind
        fun _ => hrest

end

end Stmt

end SmallJava
