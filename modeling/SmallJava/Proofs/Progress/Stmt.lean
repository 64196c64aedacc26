import Mathlib.Data.List.Nodup
import SmallJava.Codegen.Stmt
import SmallJava.Proofs.Progress.Expr
import SmallJava.Proofs.Typing.Discipline

namespace SmallJava

namespace SymbolTable

variable {table table' : SymbolTable} {sig : Signature} {vars vars' : List SymbolId} {x : SymbolId}

theorem Ready.weaken (h : table.Ready sig vars) (hsub : vars' ⊆ vars) : table.Ready sig vars' :=
  ⟨h.signature, fun x hmem => h.vars x (hsub hmem), h.fields, h.classes⟩

/-- A new variable gets its place, and the rest stays in place. -/
theorem Ready.setSlot (h : table.Ready sig vars) {slot : Int}
    (hset : table.setSlot x slot = .ok table') (hin : (sig.kind? x).isSome) :
    table'.Ready sig (vars ++ [x]) := by
  have hkept : ∀ y, (∃ d, table.slot? y = some d) → ∃ d, table'.slot? y = some d :=
    fun y ⟨d, hslot⟩ => ⟨d, slot?_setSlot_of_some hset hslot⟩
  refine ⟨(signature_setSlot hset).trans h.signature, fun y hmem => ?_,
    fun y cls modifiers hkind => hkept y (h.fields y cls modifiers hkind),
    fun y info hkind => hkept y (h.classes y info hkind)⟩
  obtain hmem | hmem := List.mem_append.1 hmem
  · exact hkept y (h.vars y hmem)
  · obtain rfl := List.mem_singleton.1 hmem
    refine ⟨slot, slot?_setSlot_self hset ?_⟩
    rw [h.kind?_eq]
    exact hin

theorem exists_setSlot (hfree : table.slot? x = none) (slot : Int) :
    ∃ table', table.setSlot x slot = .ok table' :=
  ⟨_, setSlot_eq_ok_iff.2 ⟨hfree, rfl⟩⟩

end SymbolTable

namespace Gen

variable {α β : Type} {table : SymbolTable} {sig : Signature}
  {vars mid vars' : List SymbolId} {declared declared' : List SymbolId}

/-- The action succeeds where these variables are in force and have their places. It gives
    places to variables it declares and to nothing else, and then the other variables are in
    force. -/
def Places (sig : Signature) (vars vars' declared : List SymbolId) (code : Gen α) : Prop :=
  ∀ s : GenState, s.table.Ready sig vars → (∀ x ∈ declared, s.table.slot? x = none) →
    ∃ a s', code s = .ok a s' ∧ s'.table.Ready sig vars' ∧
      (∀ x, x ∉ declared → s'.table.slot? x = s.table.slot? x) ∧ s.NotesMethods s'

theorem places_of_runs {code : Gen α}
    (hcode : ∀ table : SymbolTable, table.Ready sig vars → Runs table code) :
    Places sig vars vars [] code := by
  intro s hready _
  obtain ⟨a, s', hrun, hsame, hnotes⟩ := hcode s.table hready s rfl
  exact ⟨a, s', hrun, hsame ▸ hready, fun x _ => by rw [hsame], hnotes⟩

/-- Actions in a row place what each of them places, if that is not the same. -/
theorem Places.bind {code : Gen α} {next : α → Gen β} (hcode : Places sig vars mid declared code)
    (hnext : ∀ a, Places sig mid vars' declared' (next a))
    (hdisjoint : ∀ x ∈ declared', x ∉ declared) :
    Places sig vars vars' (declared ++ declared') (code >>= next) := by
  intro s hready hfree
  obtain ⟨a, s₁, hrun, hready₁, hsame, hnotes⟩ :=
    hcode s hready fun x hmem => hfree x (List.mem_append_left _ hmem)
  obtain ⟨b, s₂, hrun', hready₂, hsame', hnotes'⟩ := hnext a s₁ hready₁ fun x hmem => by
    rw [hsame x (hdisjoint x hmem)]
    exact hfree x (List.mem_append_right _ hmem)
  refine ⟨b, s₂, (bind_of_ok hrun).trans hrun', hready₂, fun x hnot => ?_,
    hnotes.trans hnotes' (by rw [hready₁.isMethod_eq, hready.isMethod_eq])⟩
  rw [hsame' x fun hmem => hnot (List.mem_append_right _ hmem),
    hsame x fun hmem => hnot (List.mem_append_left _ hmem)]

/-- What follows declares nothing. -/
theorem Places.andThen {code : Gen α} {next : α → Gen β}
    (hcode : Places sig vars mid declared code) (hnext : ∀ a, Places sig mid vars' [] (next a)) :
    Places sig vars vars' declared (code >>= next) := by
  have hall := hcode.bind hnext (by simp)
  rwa [List.append_nil] at hall

/-- What comes before declares nothing. -/
theorem Places.after {code : Gen α} {next : α → Gen β} (hcode : Places sig vars mid [] code)
    (hnext : ∀ a, Places sig mid vars' declared (next a)) :
    Places sig vars vars' declared (code >>= next) :=
  hcode.bind hnext (by simp)

/-- Fewer variables may be asked for afterwards, and more may be placed. -/
theorem Places.weaken {code : Gen α} (hcode : Places sig vars vars' declared code)
    {vars'' : List SymbolId} (hvars : vars'' ⊆ vars') (hdeclared : declared ⊆ declared') :
    Places sig vars vars'' declared' code := by
  intro s hready hfree
  obtain ⟨a, s', hrun, hready', hsame, hnotes⟩ := hcode s hready fun x hmem => hfree x (hdeclared hmem)
  exact ⟨a, s', hrun, hready'.weaken hvars, fun x hnot => hsame x fun hmem => hnot (hdeclared hmem),
    hnotes⟩

theorem places_pure {a : α} : Places sig vars vars [] (pure a : Gen α) :=
  places_of_runs fun _ _ => runs_pure

theorem places_get {next : GenState → Gen β} (hnext : ∀ s, Places sig vars vars' declared (next s)) :
    Places sig vars vars' declared (get >>= next) :=
  fun s => hnext s s

theorem runs_get {next : GenState → Gen β} (hnext : ∀ s, Runs table (next s)) :
    Runs table (get >>= next) :=
  fun s => hnext s s

/-- A change of what is tracked. -/
theorem runs_modify {f : GenState → GenState}
    (hkeeps : ∀ s, (f s).table = s.table ∧ (f s).asm = s.asm) :
    Runs table (modify f : Gen PUnit) :=
  fun s hs => ⟨_, f s, rfl, (hkeeps s).1.trans hs, .of_eq (by rw [(hkeeps s).2])⟩

theorem runs_emitPop {count : Int} : Runs table (emit (·.pop count)) :=
  runs_emit fun asm => by unfold Assembler.pop; split <;> rfl

theorem runs_release {mark : Int} : Runs table (release mark) :=
  runs_get fun _ => (runs_emitPop).bind fun _ => runs_modify fun _ => ⟨by rfl, by rfl⟩

/-- What is remembered of a variable never fails. -/
theorem runs_track {site : Site} {target : Reference} {value : Value} :
    Runs table (track site target value) := by
  unfold track
  split
  · exact runs_pure
  · split
    · exact runs_modify fun _ => ⟨by rfl, by rfl⟩
    · exact runs_modify fun _ => ⟨by rfl, by rfl⟩
  · exact runs_modify fun _ => ⟨by rfl, by rfl⟩

/-- An assignment succeeds if its target and its value do. -/
theorem Runs.assign {site : Site} {target : Reference} {value : Gen Value}
    (htarget : Runs table target.destination) (hvalue : Runs table value) :
    Runs table (assign site target value) := by
  refine htarget.bind fun destination => ?_
  refine hvalue.bind fun found => ?_
  refine runs_pure.pushed.bind fun _ => ?_
  cases destination with
  | register r d =>
    refine Runs.bind (runs_emit (f := (·.store r d)) fun _ => rfl) fun _ => ?_
    split
    · exact runs_track
    · exact runs_pure
  | field => exact runs_emit (f := (·.primitive .fieldupd)) fun _ => rfl

theorem Runs.assignElement {target : Reference} {subscript value : Gen Unit}
    (htarget : Runs table target.push) (hsubscript : Runs table subscript)
    (hvalue : Runs table value) : Runs table (assignElement target subscript value) := by
  refine htarget.bind fun _ => ?_
  refine hsubscript.bind fun _ => ?_
  refine hvalue.bind fun _ => ?_
  exact runs_emit fun _ => by rfl

theorem Runs.callFor {callee : Reference} {args : Gen Unit}
    (hcall : Runs table (call callee args)) : Runs table (callFor callee args) := by
  refine hcall.bind fun method => runs_table ?_
  split
  · exact runs_emitPop
  · exact runs_pure

theorem runs_returnWith {site : Site} {value : Option (Gen Unit)}
    (hvalue : ∀ code ∈ value, Runs table code) : Runs table (returnWith site value) := by
  cases value with
  | none => exact runs_emit (f := (·.returnWith 0 site.argCount)) fun _ => rfl
  | some code => exact (hvalue code rfl).bind fun _ => runs_emit fun _ => by rfl

/-- What has no place yet gets one. -/
theorem places_setSlot {x : SymbolId} (hin : (sig.kind? x).isSome) (slot : GenState → Int) :
    Places sig vars (vars ++ [x]) [x] (do setSlot x (slot (← get)) : Gen Unit) := by
  intro s hready hfree
  obtain ⟨table', hset⟩ :=
    SymbolTable.exists_setSlot (hfree x (List.mem_singleton_self x)) (slot s)
  refine ⟨(), { s with table := table' }, setSlot_eq_ok_iff.2 ⟨table', hset, rfl⟩,
    hready.setSlot hset hin, fun y hnot => ?_, .of_eq rfl⟩
  exact SymbolTable.slot?_setSlot_of_ne hset (by simpa using hnot)

/-- What follows the placing of a symbol may use it. -/
theorem Places.afterSetSlot {x : SymbolId} {code : Gen α} (hin : (sig.kind? x).isSome)
    (slot : GenState → Int) (hcode : Places sig (vars ++ [x]) (vars ++ [x]) [] code) :
    Places sig vars (vars ++ [x]) [x] (get >>= fun s => setSlot x (slot s) >>= fun _ => code) :=
  fun s => ((places_setSlot hin slot).andThen fun _ => hcode) s

/-- A declaration gives the variable its place before its initial value is computed. -/
theorem places_declare {var : LocalDef} {init : Gen Value} {x : SymbolId}
    (hbound : var.binding = some x) (hin : (sig.kind? x).isSome)
    (hinit : ∀ table : SymbolTable, table.Ready sig vars → Runs table init) :
    Places sig vars (vars ++ [x]) [x] (declare var init) := by
  unfold declare
  rw [hbound]
  refine Places.afterSetSlot hin (·.nextLocal) ?_
  refine places_of_runs fun table hready =>
    (runs_modify fun _ => ⟨by rfl, by rfl⟩).bind fun _ =>
      (hinit table (hready.weaken (List.subset_append_left vars [x]))).bind fun value => ?_
  cases value with
  | known word =>
    refine Runs.bind (runs_emit (f := (·.literal word.toInt)) fun _ => rfl) fun _ => ?_
    exact runs_modify fun _ => ⟨by rfl, by rfl⟩
  | onStack => exact runs_modify fun _ => ⟨by rfl, by rfl⟩

/-- The branches may be generated one after the other. -/
theorem Places.ifElse {site : Site} {cond : Bool → Gen Cond} {onTrue : Site → Gen Unit}
    {onFalse : Option (Site → Gen Unit)}
    (hcond : ∀ table : SymbolTable, table.Ready sig vars → Runs table (cond false))
    (hTrue : ∀ site, Places sig vars vars declared (onTrue site))
    (hFalse : ∀ code ∈ onFalse, ∀ site, Places sig vars vars declared' (code site))
    (hdisjoint : ∀ x ∈ declared', x ∉ declared) :
    Places sig vars vars (declared ++ declared') (ifElse site cond onTrue onFalse) := by
  refine (places_of_runs hcond).after fun found => ?_
  have hleft : declared ⊆ declared ++ declared' := List.subset_append_left _ _
  have hright : declared' ⊆ declared ++ declared' := List.subset_append_right _ _
  match found, onFalse, hFalse with
  | .known true, _, _ => exact (hTrue site).weaken (List.Subset.refl _) hleft
  | .known false, none, _ => exact places_pure.weaken (List.Subset.refl _) (List.nil_subset _)
  | .known false, some code, hFalse =>
    exact (hFalse code rfl site).weaken (List.Subset.refl _) hright
  | .jumps toElse, none, _ =>
    exact ((hTrue site.branch).andThen fun _ => places_of_runs fun _ _ => runs_patchAll).weaken
      (List.Subset.refl _) hleft
  | .jumps toElse, some code, hFalse =>
    refine (hTrue site.branch).bind (fun _ => ?_) hdisjoint
    refine (places_of_runs fun _ _ => runs_emitJump fun _ => by rfl).after fun done => ?_
    refine (places_of_runs fun _ _ => runs_patchAll).after fun _ => ?_
    refine (hFalse code rfl site.branch).andThen fun _ => ?_
    refine places_of_runs fun _ _ => ?_
    exact runs_emit (f := (·.patch done)) fun _ => rfl

theorem runs_backTo {start : Address} (cond : Cond) : Runs table (backTo start cond) := by
  match cond with
  | .known true => exact runs_emit (f := (·.jumpTo start)) fun _ => rfl
  | .known false => exact runs_pure
  | .jumps back => exact runs_patchAllTo

/-- The body comes before the update. -/
theorem Places.loop {line : Nat} {cond : Bool → Gen Cond} {body update : Gen Unit}
    (hcond : ∀ table : SymbolTable, table.Ready sig vars → ∀ when, Runs table (cond when))
    (hbody : Places sig vars vars declared body) (hupdate : Places sig vars vars declared' update)
    (hdisjoint : ∀ x ∈ declared', x ∉ declared) :
    Places sig vars vars (declared ++ declared') (loop line cond body update) := by
  have hrounds : ∀ exits, Places sig vars vars (declared ++ declared')
      (rounds line cond body update exits) := by
    intro exits
    refine places_get fun s => ?_
    refine hbody.bind (fun _ => ?_) hdisjoint
    refine hupdate.andThen fun _ => ?_
    refine places_of_runs fun table hready => ?_
    refine Runs.bind (runs_emit (f := (·.setLine line)) fun _ => rfl) fun _ => ?_
    refine (hcond table hready true).bind fun found => ?_
    refine (runs_backTo found).bind fun _ => ?_
    exact runs_patchAll
  refine (places_of_runs fun table hready => hcond table hready false).after fun found => ?_
  match found with
  | .known false => exact places_pure.weaken (List.Subset.refl _) (List.nil_subset _)
  | .known true => exact hrounds []
  | .jumps exits => exact hrounds exits

/-- Recording a source line needs nothing. -/
theorem Places.afterLine {line : Nat} {code : Gen α} (hcode : Places sig vars vars' declared code) :
    Places sig vars vars' declared (do emit (·.setLine line); code) :=
  (places_of_runs fun _ _ => runs_emit (f := (·.setLine line)) fun _ => rfl).after fun _ => hcode

end Gen

namespace Stmt

open Gen

variable {Γ : Context}

mutual

/-- What a well-typed statement declares are local variables. -/
theorem WellTyped.kind_of_declared : {stmt : Stmt} → {locals : List SymbolId} →
    stmt.WellTyped Γ locals → ∀ x ∈ stmt.declared, Γ.sig.kind? x = some .localVar
  | block _ stmts, _ => by
    intro h
    cases h with
    | block hstmts => exact hstmts.kind_of_allDeclared
  | varDecl _ var init, _ => by
    intro h x hmem
    cases h with
    | varDecl hbound hkind =>
      obtain rfl : x = _ := by simpa [declared, hbound] using hmem
      exact hkind
  | assign .., _ => fun _ x hmem => by simp [declared] at hmem
  | indexAssign .., _ => fun _ x hmem => by simp [declared] at hmem
  | call .., _ => fun _ x hmem => by simp [declared] at hmem
  | .return .., _ => fun _ x hmem => by simp [declared] at hmem
  | ifElse _ _ onTrue onFalse, _ => by
    intro h x hmem
    cases h with
    | ifElse _ hTrue hFalse =>
      obtain hmem | hmem := List.mem_append.1 hmem
      · exact hTrue.typed.kind_of_declared x hmem
      · cases onFalse with
        | none => simp [optionDeclared] at hmem
        | some onFalse => exact (hFalse onFalse rfl).typed.kind_of_declared x hmem
  | .while _ _ body, _ => by
    intro h x hmem
    cases h with
    | «while» _ hbody => exact hbody.typed.kind_of_declared x hmem
  | .for _ init _ update body, _ => by
    intro h x hmem
    cases h with
    | «for» hinit _ hupdate hbody =>
      obtain hmem | hmem := List.mem_append.1 hmem
      · exact kind_of_optionDeclared hinit x hmem
      · obtain hmem | hmem := List.mem_append.1 hmem
        · exact kind_of_optionDeclared hupdate x hmem
        · exact hbody.typed.kind_of_declared x hmem

theorem kind_of_optionDeclared : {stmt : Option Stmt} → {locals : List SymbolId} →
    (∀ s ∈ stmt, s.WellTyped Γ locals) →
      ∀ x ∈ optionDeclared stmt, Γ.sig.kind? x = some .localVar
  | none, _ => fun _ x hmem => by simp [optionDeclared] at hmem
  | some stmt, _ => fun h x hmem => (h stmt rfl).kind_of_declared x hmem

/-- What well-typed statements declare are local variables. -/
theorem ListWellTyped.kind_of_allDeclared : {stmts : List Stmt} → {locals : List SymbolId} →
    ListWellTyped Γ locals stmts → ∀ x ∈ allDeclared stmts, Γ.sig.kind? x = some .localVar
  | [], _ => fun _ x hmem => by simp [allDeclared] at hmem
  | stmt :: rest, _ => by
    intro h x hmem
    cases h with
    | cons hstmt hrest =>
      obtain hmem | hmem := List.mem_append.1 hmem
      · exact hstmt.kind_of_declared x hmem
      · exact hrest.kind_of_allDeclared x hmem

end

/-- The condition of a well-typed loop succeeds, and so does a loop without one. -/
theorem runs_loopCond {table : SymbolTable} {site : Site} {vars : List SymbolId}
    {cond : Option Expr} (hready : table.Ready Γ.sig vars)
    (hcond : ∀ expr ∈ cond, expr.HasType Γ vars .boolean) (when : Bool) :
    Runs table (loopCond site cond when) := by
  cases cond with
  | none => exact runs_pure
  | some expr => exact (hcond expr rfl).runs_genCond site hready when

/-- A statement that declares nothing needs the places of what it uses only. -/
theorem places_plain {line : Nat} {code : Gen Unit} {stmt : Stmt} {locals : List SymbolId}
    (hbinds : stmt.binds = []) (hdeclared : stmt.declared = [])
    (hcode : ∀ table : SymbolTable, table.Ready Γ.sig (Γ.params ++ locals) → Runs table code) :
    Places Γ.sig (Γ.params ++ locals) (Γ.params ++ (locals ++ stmt.binds)) stmt.declared
      (do emit (·.setLine line); code) := by
  rw [hbinds, hdeclared, List.append_nil]
  exact (places_of_runs hcode).afterLine

mutual

/-- Code for a well-typed statement can be generated: its variables get their places before
    they are used. -/
theorem WellTyped.places_gen : {stmt : Stmt} → {locals : List SymbolId} →
    stmt.WellTyped Γ locals → stmt.plainUpdates = true → stmt.declared.Nodup → (site : Site) →
      Places Γ.sig (Γ.params ++ locals) (Γ.params ++ (locals ++ stmt.binds)) stmt.declared
        (stmt.gen site)
  | block _ stmts, locals => by
    intro h hplain hnodup site
    cases h with
    | block hstmts =>
      obtain ⟨more, hcode⟩ := hstmts.places_genAll hplain hnodup site
      refine Places.afterLine (places_get fun s => ?_)
      refine (hcode.andThen fun _ => places_of_runs fun _ _ => runs_release).weaken ?_
        (List.Subset.refl _)
      simp [binds]
  | varDecl _ var init, locals => by
    intro h _ _ site
    cases h with
    | varDecl hbound hkind _ hinit _ =>
      refine Places.afterLine ?_
      have hcode := places_declare hbound (by rw [hkind]; rfl)
        fun table hready => hinit.runs_genValue site hready
      simpa [binds, declared, hbound] using hcode
  | assign _ target value, locals => by
    intro h _ _ site
    cases h with
    | assign htarget hplace hvalue _ =>
      exact places_plain rfl (by simp [declared]) fun table hready =>
        (htarget.runs_destination hready hplace).assign (hvalue.runs_genValue site hready)
  | indexAssign _ target subscript value, locals => by
    intro h _ _ site
    cases h with
    | indexAssign htarget hsubscript hvalue _ =>
      exact places_plain rfl (by simp [declared]) fun table hready =>
        (htarget.runs_push hready).assignElement (hsubscript.runs_genValue site hready).pushed
          (hvalue.runs_genValue site hready).pushed
  | call _ callee args, locals => by
    intro h _ _ site
    cases h with
    | call hcallee hargs =>
      exact places_plain rfl (by simp [declared]) fun table hready =>
        (hcallee.runs_call hready (hargs.runs_genArgs site hready)).callFor
  | .return _ none, locals => by
    intro _ _ _ site
    exact places_plain rfl (by simp [declared]) fun table _ => runs_returnWith (by simp)
  | .return _ (some value), locals => by
    intro h _ _ site
    cases h with
    | returnValue _ hvalue _ =>
      refine places_plain rfl (by simp [declared]) fun table hready => runs_returnWith ?_
      rintro code ⟨⟩
      exact (hvalue.runs_genValue site hready).pushed
  | ifElse _ cond onTrue onFalse, locals => by
    intro h hplain hnodup site
    cases h with
    | ifElse hcond hTrue hFalse =>
      have hplain := Bool.and_eq_true_iff.1 hplain
      obtain ⟨hnodup, hnodup', hdisjoint⟩ := List.nodup_append'.1 hnodup
      have hcond : ∀ table : SymbolTable, table.Ready Γ.sig (Γ.params ++ locals) →
          Runs table (cond.genCond site false) := fun _ hready => hcond.runs_genCond site hready false
      have hTrue' := hTrue.typed.places_gen hplain.1 hnodup
      rw [binds_of_plain hTrue.plain, List.append_nil] at hTrue'
      unfold gen
      cases onFalse with
      | none =>
        have hFalse' : ∀ code ∈ (none : Option (Site → Gen Unit)), ∀ site,
            Places Γ.sig (Γ.params ++ locals) (Γ.params ++ locals) [] (code site) := by simp
        refine Places.afterLine (Places.weaken (Places.ifElse hcond hTrue' hFalse' ?_) ?_ ?_)
        · simp
        · simp [binds]
        · simp [declared, optionDeclared]
      | some onFalse =>
        have hFalse := hFalse onFalse rfl
        have hFalse' := hFalse.typed.places_gen hplain.2 hnodup'
        rw [binds_of_plain hFalse.plain, List.append_nil] at hFalse'
        have hFalse' : ∀ code ∈ some fun site => onFalse.gen site, ∀ site, Places Γ.sig
            (Γ.params ++ locals) (Γ.params ++ locals) onFalse.declared (code site) := by
          rintro code ⟨⟩
          exact hFalse'
        refine Places.afterLine (Places.weaken (Places.ifElse hcond hTrue' hFalse' ?_) ?_ ?_)
        · exact fun x hmem hmem' => hdisjoint hmem' hmem
        · simp [binds]
        · exact List.Subset.refl _
  | .while _ cond body, locals => by
    intro h hplain hnodup site
    cases h with
    | «while» hcond hbody =>
      have hbody' := hbody.typed.places_gen hplain hnodup site.loop
      rw [binds_of_plain hbody.plain, List.append_nil] at hbody'
      refine Places.afterLine (Places.weaken (Places.loop ?_ hbody' places_pure ?_) ?_ ?_)
      · exact fun table hready when => hcond.runs_genCond site.loop hready when
      · simp
      · simp [binds]
      · simp [declared]
  | .for _ init cond update body, locals => by
    intro h hplain hnodup site
    obtain ⟨hplain₁, hdeclares, hplain₂, hplain₃⟩ := plain_of_plainUpdates hplain
    obtain ⟨hnodup₁, hnodup, hdisjoint₁⟩ := List.nodup_append'.1 hnodup
    obtain ⟨hnodup₂, hnodup₃, hdisjoint₂⟩ := List.nodup_append'.1 hnodup
    cases h with
    | «for» hinit hcond hupdate hbody =>
      have hinit' := places_genOption hinit hplain₁ hnodup₁ site
      have hupdate' := places_genOption hupdate hplain₂ hnodup₂ site.loop
      rw [optionBinds_of_plain hdeclares, List.append_nil] at hupdate' hbody
      have hbody' := hbody.typed.places_gen hplain₃ hnodup₃ site.loop
      rw [binds_of_plain hbody.plain, List.append_nil] at hbody'
      refine Places.afterLine (places_get fun s => ?_)
      refine Places.weaken (hinit'.bind (fun _ => Places.andThen (Places.loop ?_ hbody' hupdate' ?_)
        fun _ => places_of_runs fun _ _ => runs_release) ?_) ?_ ?_
      · exact fun table hready when => runs_loopCond hready hcond when
      · exact fun x hmem hmem' => hdisjoint₂ hmem hmem'
      · intro x hmem hmem'
        refine hdisjoint₁ hmem' ?_
        simpa [or_comm] using hmem
      · simp [binds]
      · intro x hmem
        simp only [declared, List.mem_append] at hmem ⊢
        exact hmem.imp_right Or.symm

/-- A statement that may be left out places the variables that it declares. -/
theorem places_genOption : {stmt : Option Stmt} → {locals : List SymbolId} →
    (∀ s ∈ stmt, s.WellTyped Γ locals) → optionPlainUpdates stmt = true →
      (optionDeclared stmt).Nodup → (site : Site) →
        Places Γ.sig (Γ.params ++ locals) (Γ.params ++ (locals ++ optionBinds stmt))
          (optionDeclared stmt) (genOption site stmt)
  | none, _ => by
    intro _ _ _ _
    simpa [optionBinds, optionDeclared, genOption] using places_pure
  | some stmt, _ => fun h hplain hnodup site => (h stmt rfl).places_gen hplain hnodup site

/-- Statements in a row place the variables that they declare, and some of them stay in force. -/
theorem ListWellTyped.places_genAll : {stmts : List Stmt} → {locals : List SymbolId} →
    ListWellTyped Γ locals stmts → allPlainUpdates stmts = true → (allDeclared stmts).Nodup →
      (site : Site) → ∃ more, Places Γ.sig (Γ.params ++ locals) (Γ.params ++ (locals ++ more))
        (allDeclared stmts) (genAll site stmts)
  | [], _ => fun _ _ _ _ => ⟨[], by simpa [allDeclared, genAll] using places_pure⟩
  | stmt :: rest, _ => by
    intro h hplain hnodup site
    cases h with
    | cons hstmt hrest =>
      have hplain := Bool.and_eq_true_iff.1 hplain
      obtain ⟨hnodup, hnodup', hdisjoint⟩ := List.nodup_append'.1 hnodup
      obtain ⟨more, hrest⟩ := hrest.places_genAll hplain.2 hnodup' site
      refine ⟨stmt.binds ++ more, ?_⟩
      rw [← List.append_assoc _ stmt.binds]
      exact (hstmt.places_gen hplain.1 hnodup site).bind (fun _ => hrest)
        fun x hmem hmem' => hdisjoint hmem' hmem

end

end Stmt

end SmallJava
