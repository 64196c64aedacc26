import SmallJava.Proofs.Codegen.ExprEmission

namespace SmallJava

def GenState.tracked (state : GenState) : Tracked := ⟨state.nextLocal, state.known⟩

theorem Quiet.tracked {s s' : GenState} (hquiet : Quiet s s') : s'.tracked = s.tracked := by
  simp [GenState.tracked, hquiet.nextLocal, hquiet.known]

theorem TestCode.eq_of_known {im : Image} {fold : Folding} {cond : Option Expr} {when : Bool}
    {outcome : Option Bool} {a b t : Nat} (htest : TestCode im fold cond when outcome a b t)
    (hknown : outcome ≠ Option.none) : a = b := by
  cases htest with
  | none => rfl
  | some hcond => exact hcond.eq_of_known hknown

namespace Gen

/-- The action emits the code of the statement. -/
def YieldsStmt (site : Site) (stmt : Stmt) (code : Gen Unit) : Prop :=
  ∀ ⦃s s' : GenState⦄, code s = .ok () s' →
    Emits s s' [] fun im _ => stmt.Code im site s.tracked s.here s'.here s'.tracked

def YieldsOption (site : Site) (stmt : Option Stmt) (code : Gen Unit) : Prop :=
  ∀ ⦃s s' : GenState⦄, code s = .ok () s' →
    Emits s s' [] fun im _ => Stmt.OptionCode im site stmt s.tracked s.here s'.here s'.tracked

def YieldsAll (site : Site) (stmts : List Stmt) (code : Gen Unit) : Prop :=
  ∀ ⦃s s' : GenState⦄, code s = .ok () s' →
    Emits s s' [] fun im _ => Stmt.ListCode im site stmts s.tracked s.here s'.here s'.tracked

/-- The action emits the test of a loop. -/
def YieldsTest (site : Site) (cond : Option Expr) (when : Bool) (code : Gen Cond) : Prop :=
  ∀ ⦃s s' : GenState⦄ ⦃outcome : Cond⦄, code s = .ok outcome s' →
    Quiet s s' ∧ Emits s s' outcome.labels fun im target =>
      ∀ t, (∀ label ∈ outcome.labels, target label = t) →
        TestCode im (site.fold s.known) cond when outcome.outcome? s.here s'.here t

variable {site : Site}

/-- Recording a source line emits nothing. -/
theorem setLine_emits {line : Nat} {s s' : GenState} (hline : emit (·.setLine line) s = .ok () s') :
    s'.here = s.here ∧ Quiet s s' ∧ Emits s s' [] fun _ _ => True := by
  obtain rfl := emit_eq_ok_iff.1 hline
  exact ⟨rfl, Quiet.asm s _, Emits.still s _ rfl rfl rfl⟩

/-- The source line recorded before the code of a statement does not matter for it. -/
theorem yieldsStmt_line {stmt : Stmt} {line : Nat} {code : Gen Unit}
    (hcode : YieldsStmt site stmt code) :
    YieldsStmt site stmt (do emit (·.setLine line); code) := by
  intro s s' hstmt
  obtain ⟨_, s₁, hline, hstmt⟩ := bind_eq_ok_iff.1 hstmt
  obtain ⟨hsame, hquiet, hline⟩ := setLine_emits hline
  refine (hline.trans (hcode hstmt)).weaken fun im _ hshape => ?_
  rw [← hsame, ← hquiet.tracked]
  exact hshape.2

/-- The local variables declared since the mark are dropped. -/
theorem release_emits {mark : Int} {s s' : GenState} (hrelease : release mark s = .ok () s') :
    s'.tracked = { s.tracked with next := mark } ∧
      Emits s s' [] fun im _ => PopCode im (s.nextLocal - mark) s.here s'.here := by
  obtain ⟨_, _, hget, hrelease⟩ := bind_eq_ok_iff.1 hrelease
  obtain ⟨rfl, rfl⟩ := get_eq_ok_iff.1 hget
  obtain ⟨_, s₁, hpop, hrelease⟩ := bind_eq_ok_iff.1 hrelease
  obtain rfl := modify_eq_ok_iff.1 hrelease
  have hpop := emit_eq_ok_iff.1 hpop
  have hafter : Emits s₁ { s₁ with nextLocal := mark } [] fun _ _ => True :=
    Emits.still s₁ _ rfl rfl rfl
  by_cases hcount : 0 < s.nextLocal - mark
  · unfold Assembler.pop at hpop
    rw [if_pos hcount] at hpop
    obtain ⟨hnext, hquiet, hpop⟩ := Emits.one (.pop (s.nextLocal - mark)) hpop
    refine ⟨by simp [GenState.tracked, hquiet.known], (hpop.trans hafter).weaken fun im _ hshape => ?_⟩
    change PopCode im _ _ s₁.here
    rw [hnext]
    exact .some hcount hshape.1
  · unfold Assembler.pop at hpop
    rw [if_neg hcount] at hpop
    subst hpop
    exact ⟨rfl, hafter.weaken fun im _ _ => .none (Int.not_lt.1 hcount)⟩

theorem yieldsAll_nil : YieldsAll site [] (pure ()) := by
  intro s s' hcode
  obtain ⟨-, rfl⟩ := pure_eq_ok_iff.1 hcode
  exact (Emits.look s).weaken fun im _ _ => .nil

/-- Statements are generated one after the other. -/
theorem YieldsStmt.cons {stmt : Stmt} {rest : List Stmt} {codeStmt codeRest : Gen Unit}
    (hstmt : YieldsStmt site stmt codeStmt) (hrest : YieldsAll site rest codeRest) :
    YieldsAll site (stmt :: rest) (do codeStmt; codeRest) := by
  intro s s' hcode
  obtain ⟨_, s₁, hcodeStmt, hcodeRest⟩ := bind_eq_ok_iff.1 hcode
  exact ((hstmt hcodeStmt).trans (hrest hcodeRest)).weaken fun im _ hshape =>
    .cons hshape.1 hshape.2

theorem yieldsOption_none : YieldsOption site none (pure ()) := by
  intro s s' hcode
  obtain ⟨-, rfl⟩ := pure_eq_ok_iff.1 hcode
  exact (Emits.look s).weaken fun im _ _ => .none

theorem YieldsStmt.some {stmt : Stmt} {code : Gen Unit} (hstmt : YieldsStmt site stmt code) :
    YieldsOption site (some stmt) code := by
  intro s s' hcode
  exact (hstmt hcode).weaken fun im _ hstmt => .some hstmt

/-- A block takes back at its end the slots that were given in it. -/
theorem yieldsStmt_block {span : Span} {stmts : List Stmt} {code : Gen Unit}
    (hstmts : YieldsAll site stmts code) :
    YieldsStmt site (.block span stmts) (do
      let mark := (← get).nextLocal
      code
      release mark) := by
  intro s s' hblock
  obtain ⟨_, _, hget, hblock⟩ := bind_eq_ok_iff.1 hblock
  obtain ⟨rfl, rfl⟩ := get_eq_ok_iff.1 hget
  obtain ⟨_, s₁, hcode, hrelease⟩ := bind_eq_ok_iff.1 hblock
  obtain ⟨htracked, hrelease⟩ := release_emits hrelease
  refine ((hstmts hcode).trans hrelease).weaken fun im _ hshape => ?_
  rw [htracked]
  exact .block hshape.1 hshape.2

/-- A declared variable gets its slot before its initial value is pushed into it. -/
theorem yieldsStmt_varDecl {span : Span} {var : LocalDef} {init : Expr} {code : Gen Value}
    (hinit : YieldsValue site init code) :
    YieldsStmt site (.varDecl span var init) (declare var code) := by
  intro s s' hdeclare
  obtain ⟨x, _, hname, hdeclare⟩ := bind_eq_ok_iff.1 hdeclare
  obtain ⟨hbound, rfl⟩ := bound_eq_ok_iff.1 hname
  obtain ⟨_, _, hget, hdeclare⟩ := bind_eq_ok_iff.1 hdeclare
  obtain ⟨rfl, rfl⟩ := get_eq_ok_iff.1 hget
  obtain ⟨_, _, hset, hdeclare⟩ := bind_eq_ok_iff.1 hdeclare
  obtain ⟨table, htable, rfl⟩ := setSlot_eq_ok_iff.1 hset
  obtain ⟨_, s₁, hmodify, hdeclare⟩ := bind_eq_ok_iff.1 hdeclare
  have hs₁ := modify_eq_ok_iff.1 hmodify
  have hassigned : Emits s s₁ [] fun im _ =>
      (im.signature.kind? x).isSome → im.slot? x = some s.nextLocal := by
    have hlook := Emits.look s
    have hsilent : Emits s s₁ [] _ := Emits.silent (by rw [← hs₁]) (by rw [← hs₁])
      (by rw [← hs₁]; exact SymbolTable.signature_setSlot htable)
      (fun y d hslot => by rw [← hs₁]; exact SymbolTable.slot?_setSlot_of_some htable hslot)
    refine (hlook.trans hsilent).weaken fun im _ hshape hin => ?_
    obtain ⟨⟨hsig, -⟩, hslots⟩ := hshape
    rw [← hsig] at hin
    refine hslots x s.nextLocal ?_
    rw [← hs₁]
    exact SymbolTable.slot?_setSlot_self htable hin
  have hknown : s₁.known = s.known := by rw [← hs₁]
  have hhere : s₁.here = s.here := by rw [← hs₁]; rfl
  have hnext : s₁.nextLocal = s.nextLocal + 1 := by rw [← hs₁]
  obtain ⟨value, s₂, hcode, hdeclare⟩ := bind_eq_ok_iff.1 hdeclare
  obtain ⟨hquiet₂, hinit⟩ := hinit hcode
  rw [hknown, hhere] at hinit
  cases value with
  | known word =>
    obtain ⟨_, s₃, hliteral, hlearn⟩ := bind_eq_ok_iff.1 hdeclare
    obtain ⟨hnext₃, hquiet₃, hliteral⟩ := Emits.one (.literal word.toInt) (emit_eq_ok_iff.1 hliteral)
    obtain rfl := modify_eq_ok_iff.1 hlearn
    have hlearned : Emits s₃ { s₃ with known := s₃.known.insert x word } [] fun _ _ => True :=
      Emits.still s₃ _ rfl rfl rfl
    refine (hassigned.trans (hinit.trans (hliteral.trans hlearned))).weaken fun im _ hshape => ?_
    obtain ⟨hslot, hinit, hliteral, -⟩ := hshape
    have htracked : GenState.tracked { s₃ with known := s₃.known.insert x word } =
        ⟨s.tracked.next + 1, s.tracked.known.insert x word⟩ := by
      simp [GenState.tracked, hquiet₃.nextLocal, hquiet₂.nextLocal, hquiet₃.known, hquiet₂.known,
        hknown, hnext]
    rw [htracked]
    change Stmt.Code im site _ _ _ s₃.here _
    rw [hnext₃]
    exact .varDeclKnown hbound hslot hinit hliteral
  | onStack =>
    obtain rfl := modify_eq_ok_iff.1 hdeclare
    have hforgotten : Emits s₂ { s₂ with known := s₂.known.erase x } [] fun _ _ => True :=
      Emits.still s₂ _ rfl rfl rfl
    refine (hassigned.trans (hinit.trans hforgotten)).weaken fun im _ hshape => ?_
    obtain ⟨hslot, hinit, -⟩ := hshape
    have htracked : GenState.tracked { s₂ with known := s₂.known.erase x } =
        ⟨s.tracked.next + 1, s.tracked.known.erase x⟩ := by
      simp [GenState.tracked, hquiet₂.nextLocal, hquiet₂.known, hknown, hnext]
    rw [htracked]
    exact .varDecl hbound hslot hinit

/-- What is known of the target is tracked as `Site.track` says. -/
theorem track_emits {target : Reference} {value : Value} {s s' : GenState}
    (htrack : track site target value s = .ok () s') :
    s'.here = s.here ∧ Emits s s' [] (fun _ _ => True) ∧
      s'.tracked = { s.tracked with known := site.track target value s.known } := by
  unfold track at htrack
  unfold Site.track
  cases hbound : target.binding with
  | none =>
    rw [hbound] at htrack
    obtain ⟨-, rfl⟩ := pure_eq_ok_iff.1 htrack
    exact ⟨rfl, Emits.still s _ rfl rfl rfl, rfl⟩
  | some x =>
    rw [hbound] at htrack
    cases value with
    | onStack =>
      obtain rfl := modify_eq_ok_iff.1 htrack
      exact ⟨rfl, Emits.still s _ rfl rfl rfl, rfl⟩
    | known word =>
      dsimp only at htrack ⊢
      by_cases hpath : (!site.inBranch && !site.inLoop) = true
      · rw [if_pos hpath] at htrack ⊢
        obtain rfl := modify_eq_ok_iff.1 htrack
        exact ⟨rfl, Emits.still s _ rfl rfl rfl, rfl⟩
      · rw [if_neg hpath] at htrack ⊢
        obtain rfl := modify_eq_ok_iff.1 htrack
        exact ⟨rfl, Emits.still s _ rfl rfl rfl, rfl⟩

/-- The last part of an assignment. -/
private theorem store_emits {target : Reference} {value : Value} {destination : Destination}
    {s s' : GenState}
    (hstore : (match destination with
      | .register r d => do
        emit (·.store r d)
        if r = .lb then track site target value
      | .field => emit (·.primitive .fieldupd) : Gen Unit) s = .ok () s') :
    s'.here = s.here + 1 ∧ Emits s s' [] fun im _ => ∃ known,
      StoreCode im site target value s.known destination s.here known ∧
        s'.tracked = { s.tracked with known } := by
  cases destination with
  | register r d =>
    obtain ⟨_, s₁, hemit, htrack⟩ := bind_eq_ok_iff.1 hstore
    obtain ⟨hnext, hquiet, hemit⟩ := Emits.one (.store r d) (emit_eq_ok_iff.1 hemit)
    by_cases hbase : r = .lb
    · subst hbase
      rw [if_pos rfl] at htrack
      obtain ⟨hsame, hafter, htracked⟩ := track_emits htrack
      refine ⟨hsame.trans hnext, (hemit.trans hafter).weaken fun im _ hshape => ?_⟩
      rw [hquiet.tracked, hquiet.known] at htracked
      exact ⟨_, .variable hshape.1, htracked⟩
    · rw [if_neg hbase] at htrack
      obtain ⟨-, rfl⟩ := pure_eq_ok_iff.1 htrack
      exact ⟨hnext, hemit.weaken fun im _ hemit => ⟨s.known, .field hbase hemit, hquiet.tracked⟩⟩
  | field =>
    obtain ⟨hnext, hquiet, hemit⟩ := Emits.one (.primitive .fieldupd) (emit_eq_ok_iff.1 hstore)
    exact ⟨hnext, hemit.weaken fun im _ hemit => ⟨s.known, .otherField hemit, hquiet.tracked⟩⟩

/-- The target is prepared first, then the value is pushed and stored; what becomes known of the
target is recorded. -/
theorem yieldsStmt_assign {span : Span} {target : Reference} {expr : Expr} {code : Gen Value}
    (hexpr : YieldsValue site expr code) :
    YieldsStmt site (.assign span target expr) (assign site target code) := by
  intro s s' hassign
  obtain ⟨destination, s₁, htarget, hassign⟩ := bind_eq_ok_iff.1 hassign
  obtain ⟨hquiet₁, htarget⟩ := target.destination_emits htarget
  obtain ⟨value, s₂, hcode, hassign⟩ := bind_eq_ok_iff.1 hassign
  obtain ⟨hquiet₂, hexpr⟩ := hexpr hcode
  rw [hquiet₁.known] at hexpr
  obtain ⟨_, s₃, hpushed, hstore⟩ := bind_eq_ok_iff.1 hassign
  have hquiet := hquiet₁.trans hquiet₂
  cases value with
  | known word =>
    have hpushed : emit (·.literal word.toInt) s₂ = .ok () s₃ := hpushed
    obtain ⟨hnext₃, hquiet₃, hliteral⟩ := Emits.one (.literal word.toInt) (emit_eq_ok_iff.1 hpushed)
    obtain ⟨hnext, hstore⟩ := store_emits hstore
    refine (htarget.trans (hexpr.trans (hliteral.trans hstore))).weaken fun im _ hshape => ?_
    obtain ⟨htarget, hexpr, hliteral, known, hstore, htracked⟩ := hshape
    rw [(hquiet.trans hquiet₃).tracked] at htracked
    rw [hnext₃, (hquiet.trans hquiet₃).known] at hstore
    rw [htracked, hnext, hnext₃]
    exact .assignKnown htarget hexpr hliteral hstore
  | onStack =>
    obtain ⟨-, rfl⟩ := pure_eq_ok_iff.1 hpushed
    obtain ⟨hnext, hstore⟩ := store_emits hstore
    refine (htarget.trans (hexpr.trans hstore)).weaken fun im _ hshape => ?_
    obtain ⟨htarget, hexpr, known, hstore, htracked⟩ := hshape
    rw [hquiet.tracked] at htracked
    rw [hquiet.known] at hstore
    rw [htracked, hnext]
    exact .assign htarget hexpr hstore

/-- Array, index and value come from left to right, then the store. -/
theorem yieldsStmt_indexAssign {span : Span} {target : Reference} {subscript value : Expr}
    {codeSubscript codeValue : Gen Unit} (hsubscript : Pushes site subscript codeSubscript)
    (hvalue : Pushes site value codeValue) :
    YieldsStmt site (.indexAssign span target subscript value)
      (assignElement target codeSubscript codeValue) := by
  intro s s' hassign
  obtain ⟨_, s₁, htarget, hassign⟩ := bind_eq_ok_iff.1 hassign
  obtain ⟨hquiet₁, htarget⟩ := target.push_emits htarget
  obtain ⟨_, s₂, hcode, hassign⟩ := bind_eq_ok_iff.1 hassign
  obtain ⟨hquiet₂, hsubscript⟩ := hsubscript hcode
  obtain ⟨_, s₃, hcode, hstore⟩ := bind_eq_ok_iff.1 hassign
  obtain ⟨hquiet₃, hvalue⟩ := hvalue hcode
  obtain ⟨hnext, hquiet₄, hstore⟩ := Emits.one (.primitive .arrayupd) (emit_eq_ok_iff.1 hstore)
  refine (htarget.trans (hsubscript.trans (hvalue.trans hstore))).weaken fun im _ hshape => ?_
  obtain ⟨htarget, hsubscript, hvalue, hstore⟩ := hshape
  rw [hquiet₁.known] at hsubscript
  rw [(hquiet₁.trans hquiet₂).known] at hvalue
  rw [hnext, (hquiet₁.trans (hquiet₂.trans (hquiet₃.trans hquiet₄))).tracked]
  exact .indexAssign htarget hsubscript hvalue hstore

/-- A call statement drops the result of its method, if there is one. -/
theorem yieldsStmt_call {span : Span} {callee : Reference} {args : List Expr} {code : Gen Unit}
    (hargs : PushesAll site args code) :
    YieldsStmt site (.call span callee args) (callFor callee code) := by
  intro s s' hcallFor
  obtain ⟨method, s₁, hcall, hcallFor⟩ := bind_eq_ok_iff.1 hcallFor
  obtain ⟨hquiet₁, hcall⟩ := call_emits hargs hcall
  obtain ⟨_, _, htable, hpop⟩ := bind_eq_ok_iff.1 hcallFor
  obtain ⟨rfl, rfl⟩ := table_eq_ok_iff.1 htable
  have hlook := Emits.look s
  rw [← hquiet₁.table] at hlook
  cases hvoid : (s₁.table.typeOf method).isVoid with
  | true =>
    rw [if_neg (by simp [hvoid])] at hpop
    obtain ⟨-, rfl⟩ := pure_eq_ok_iff.1 hpop
    refine (hlook.trans hcall).weaken fun im _ hshape => ?_
    obtain ⟨⟨hsig, -⟩, b, hargs, hinvoke⟩ := hshape
    have hvoid : (im.signature.typeOf method).isVoid = true := by rw [← hsig]; exact hvoid
    rw [hquiet₁.tracked]
    refine .call hargs hinvoke (.none ?_)
    simp [hvoid]
  | false =>
    rw [if_pos (by simp [hvoid])] at hpop
    obtain ⟨hnext, hquiet₂, hpop⟩ := Emits.one (.pop 1) (emit_eq_ok_iff.1 hpop)
    refine (hlook.trans (hcall.trans hpop)).weaken fun im _ hshape => ?_
    obtain ⟨⟨hsig, -⟩, ⟨b, hargs, hinvoke⟩, hpop⟩ := hshape
    have hvoid : (im.signature.typeOf method).isVoid = false := by rw [← hsig]; exact hvoid
    rw [hnext, (hquiet₁.trans hquiet₂).tracked]
    refine .call hargs hinvoke ?_
    rw [hvoid]
    exact .some (by simp) hpop

/-- A return pushes its value and leaves with it. -/
theorem yieldsStmt_returnValue {span : Span} {value : Expr} {code : Gen Unit}
    (hvalue : Pushes site value code) :
    YieldsStmt site (.return span (some value)) (returnWith site (some code)) := by
  intro s s' hreturn
  obtain ⟨_, s₁, hcode, hreturn⟩ := bind_eq_ok_iff.1 hreturn
  obtain ⟨hquiet₁, hvalue⟩ := hvalue hcode
  obtain ⟨hnext, hquiet₂, hreturn⟩ :=
    Emits.one (.returnWith 1 site.argCount) (emit_eq_ok_iff.1 hreturn)
  refine (hvalue.trans hreturn).weaken fun im _ hshape => ?_
  rw [hnext, (hquiet₁.trans hquiet₂).tracked]
  exact .returnValue hshape.1 hshape.2

/-- A return without a value leaves at once. -/
theorem yieldsStmt_return {span : Span} :
    YieldsStmt site (.return span none) (returnWith site none) := by
  intro s s' hreturn
  have hreturn : emit (·.returnWith 0 site.argCount) s = .ok () s' := hreturn
  obtain ⟨hnext, hquiet, hreturn⟩ :=
    Emits.one (.returnWith 0 site.argCount) (emit_eq_ok_iff.1 hreturn)
  refine hreturn.weaken fun im _ hreturn => ?_
  rw [hnext, hquiet.tracked]
  exact .return hreturn

/-- A known condition leaves one branch at the same site. An open one leaves both, at
the site of a branch. -/
theorem yieldsStmt_ifOnly {span : Span} {cond : Expr} {onTrue : Stmt} {codeCond : Bool → Gen Cond}
    {codeTrue : Site → Gen Unit} (hcond : YieldsCond site cond false (codeCond false))
    (hTrue : ∀ site, YieldsStmt site onTrue (codeTrue site)) :
    YieldsStmt site (.ifElse span cond onTrue none) (ifElse site codeCond codeTrue none) := by
  intro s s' hif
  obtain ⟨outcome, s₁, hcode, hif⟩ := bind_eq_ok_iff.1 hif
  obtain ⟨hquiet₁, hcond⟩ := hcond hcode
  cases outcome with
  | known outcome =>
    cases outcome with
    | true =>
      refine (hcond.trans (hTrue site hif)).weaken fun im _ hshape => ?_
      obtain ⟨hcond, hTrue⟩ := hshape
      have hcond := hcond 0 (by simp [Cond.labels])
      have hsame := hcond.eq_of_known (by simp [Cond.outcome?])
      rw [hquiet₁.tracked, ← hsame] at hTrue
      rw [← hsame] at hcond
      exact .ifTrue hcond hTrue
    | false =>
      obtain ⟨-, rfl⟩ := pure_eq_ok_iff.1 hif
      refine hcond.weaken fun im _ hcond => ?_
      have hcond := hcond 0 (by simp [Cond.labels])
      have hsame := hcond.eq_of_known (by simp [Cond.outcome?])
      rw [hquiet₁.tracked, ← hsame]
      rw [← hsame] at hcond
      exact .ifFalse hcond .none
  | jumps toElse =>
    obtain ⟨_, s₂, hcode, hpatch⟩ := bind_eq_ok_iff.1 hif
    obtain ⟨hsame, hquiet₃, hall⟩ := hcond.patched (hTrue site.branch hcode) hpatch
    refine hall.weaken fun im _ hshape => ?_
    obtain ⟨target, helse, -, hcond, hTrue⟩ := hshape
    rw [hquiet₁.tracked] at hTrue
    rw [hquiet₃.tracked]
    rw [hsame] at helse ⊢
    exact .ifOnly (hcond _ helse) hTrue

/-- Of an undecided condition both branches are generated: its jumps lead to the second one, and the
jump after the first one to the end. -/
theorem yieldsStmt_ifElse {span : Span} {cond : Expr} {onTrue onFalse : Stmt}
    {codeCond : Bool → Gen Cond} {codeTrue codeFalse : Site → Gen Unit}
    (hcond : YieldsCond site cond false (codeCond false))
    (hTrue : ∀ site, YieldsStmt site onTrue (codeTrue site))
    (hFalse : ∀ site, YieldsStmt site onFalse (codeFalse site)) :
    YieldsStmt site (.ifElse span cond onTrue (some onFalse))
      (ifElse site codeCond codeTrue (some codeFalse)) := by
  intro s s' hif
  obtain ⟨outcome, s₁, hcode, hif⟩ := bind_eq_ok_iff.1 hif
  obtain ⟨hquiet₁, hcond⟩ := hcond hcode
  cases outcome with
  | known outcome =>
    cases outcome with
    | true =>
      refine (hcond.trans (hTrue site hif)).weaken fun im _ hshape => ?_
      obtain ⟨hcond, hTrue⟩ := hshape
      have hcond := hcond 0 (by simp [Cond.labels])
      have hsame := hcond.eq_of_known (by simp [Cond.outcome?])
      rw [hquiet₁.tracked, ← hsame] at hTrue
      rw [← hsame] at hcond
      exact .ifTrue hcond hTrue
    | false =>
      refine (hcond.trans (hFalse site hif)).weaken fun im _ hshape => ?_
      obtain ⟨hcond, hFalse⟩ := hshape
      have hcond := hcond 0 (by simp [Cond.labels])
      have hsame := hcond.eq_of_known (by simp [Cond.outcome?])
      rw [hquiet₁.tracked, ← hsame] at hFalse
      rw [← hsame] at hcond
      exact .ifFalse hcond (.some hFalse)
  | jumps toElse =>
    obtain ⟨_, s₂, hcode, hif⟩ := bind_eq_ok_iff.1 hif
    have hTrue := hTrue site.branch hcode
    obtain ⟨done, s₃, hjump, hif⟩ := bind_eq_ok_iff.1 hif
    obtain ⟨hnext, hquiet₃, hjump⟩ := Emits.jump hjump
    obtain ⟨_, s₄, hpatch, hif⟩ := bind_eq_ok_iff.1 hif
    obtain ⟨hsame, hquiet₄, hfirst⟩ := hcond.patched (hTrue.trans hjump) hpatch
    obtain ⟨_, s₅, hcode, hpatch⟩ := bind_eq_ok_iff.1 hif
    have hpatch : patchAll [done] s₅ = .ok () s' := hpatch
    obtain ⟨hend, hquiet₆, hall⟩ := (hfirst.trans (hFalse site.branch hcode)).closed hpatch
    refine hall.weaken fun im _ hshape => ?_
    obtain ⟨target, hdone, ⟨target', helse, hopen, hcond, hTrue, hjump⟩, hFalse⟩ := hshape
    rw [hopen done (by simp), hdone done (by simp)] at hjump
    rw [hquiet₁.tracked] at hTrue
    rw [(hquiet₃.trans hquiet₄).tracked] at hFalse
    rw [hsame, hnext] at helse hFalse
    rw [hquiet₆.tracked]
    rw [hend] at hjump ⊢
    exact .ifElse (hcond _ helse) hTrue hjump hFalse

/-- A loop without a condition goes on for ever. -/
theorem loopCond_yields (cond : Option Expr) (when : Bool)
    (hcond : ∀ expr ∈ cond, YieldsCond site expr when (expr.genCond site when)) :
    YieldsTest site cond when (Stmt.loopCond site cond when) := by
  intro s s' outcome hcode
  cases cond with
  | none =>
    obtain ⟨rfl, rfl⟩ := pure_eq_ok_iff.1 hcode
    exact ⟨Quiet.refl s, (Emits.look s).weaken fun im _ _ t _ => .none⟩
  | some expr =>
    obtain ⟨hquiet, hcond⟩ := hcond expr rfl hcode
    exact ⟨hquiet, hcond.weaken fun im _ hcond t ht => .some (hcond t ht)⟩

/-- The jump back to the start of a loop. -/
theorem backTo_emits {cond : Option Expr} {code : Gen Cond} (hcond : YieldsTest site cond true code)
    {start : Nat} {s s' : GenState} (hback : (do backTo start (← code)) s = .ok () s') :
    Quiet s s' ∧ Emits s s' [] fun im _ =>
      BackCode im (site.fold s.known) cond s.here s'.here start := by
  obtain ⟨outcome, s₁, hcode, hback⟩ := bind_eq_ok_iff.1 hback
  obtain ⟨hquiet₁, hcond⟩ := hcond hcode
  cases outcome with
  | known outcome =>
    cases outcome with
    | true =>
      have hemit : emit (·.jumpTo start) s₁ = .ok () s' := hback
      have hafter := emit_eq_ok_iff.1 hemit
      obtain ⟨hnext, hquiet₂, hjump⟩ := Emits.jumpTo hafter
      refine ⟨hquiet₁.trans hquiet₂, (hcond.trans hjump).weaken fun im _ hshape => ?_⟩
      obtain ⟨hcond, hjump⟩ := hshape
      have hcond := hcond start (by simp [Cond.labels])
      have hsame := hcond.eq_of_known (by simp [Cond.outcome?])
      rw [← hsame] at hcond hjump hnext
      rw [hnext]
      exact .always hcond hjump
    | false =>
      obtain ⟨-, rfl⟩ := pure_eq_ok_iff.1 hback
      refine ⟨hquiet₁, hcond.weaken fun im _ hcond => ?_⟩
      have hcond := hcond start (by simp [Cond.labels])
      have hsame := hcond.eq_of_known (by simp [Cond.outcome?])
      rw [← hsame] at hcond ⊢
      exact .never hcond
  | jumps back =>
    obtain ⟨hsame, hquiet₂, hall⟩ := hcond.closedAt hback
    refine ⟨hquiet₁.trans hquiet₂, hall.weaken fun im _ hshape => ?_⟩
    obtain ⟨target, hback, hcond⟩ := hshape
    rw [hsame]
    exact .test (hcond start hback)

/-- The rounds of a loop, after which the jumps that leave it get their target. -/
theorem rounds_emits {line : Nat} {cond : Option Expr} {body : Stmt} {update : Option Stmt}
    {codeCond : Bool → Gen Cond} {codeBody codeUpdate : Gen Unit}
    (hcond : YieldsTest site cond true (codeCond true)) (hbody : YieldsStmt site body codeBody)
    (hupdate : YieldsOption site update codeUpdate) {P : Image → (Label → Nat) → Prop}
    {exits : List Label} {s₀ s s' : GenState} (hbefore : Emits s₀ s exits P)
    (hrounds : rounds line codeCond codeBody codeUpdate exits s = .ok () s') :
    Emits s₀ s' [] fun im _ => ∃ (target : Label → Nat) (b c : Nat) (φ' : Tracked),
      (∀ label ∈ exits, target label = s'.here) ∧ P im target ∧
        body.Code im site s.tracked s.here b φ' ∧
        Stmt.OptionCode im site update φ' b c s'.tracked ∧
        BackCode im (site.fold s'.tracked.known) cond c s'.here s.here := by
  obtain ⟨start, _, hstart, hrounds⟩ := bind_eq_ok_iff.1 hrounds
  obtain ⟨rfl, rfl⟩ := here_eq_ok_iff.1 hstart
  obtain ⟨_, s₁, hcode, hrounds⟩ := bind_eq_ok_iff.1 hrounds
  have hbody := hbody hcode
  obtain ⟨_, s₂, hcode, hrounds⟩ := bind_eq_ok_iff.1 hrounds
  have hupdate := hupdate hcode
  obtain ⟨_, s₃, hline, hrounds⟩ := bind_eq_ok_iff.1 hrounds
  obtain ⟨hsame₃, hquiet₃, hline⟩ := setLine_emits hline
  obtain ⟨outcome, s₄, hcode, hrounds⟩ := bind_eq_ok_iff.1 hrounds
  obtain ⟨_, s₅, hback, hpatch⟩ := bind_eq_ok_iff.1 hrounds
  obtain ⟨hquiet₅, hback⟩ := backTo_emits hcond (bind_eq_ok_iff.2 ⟨outcome, s₄, hcode, hback⟩)
  have hround := hbody.trans (hupdate.trans (hline.trans hback))
  have hall := hbefore.trans hround
  simp only [List.append_nil] at hall
  obtain ⟨hsame, hquiet₆, hall⟩ := hall.closed hpatch
  refine hall.weaken fun im _ hshape => ?_
  obtain ⟨target, hexits, hP, hbody, hupdate, -, hback⟩ := hshape
  have htracked := (hquiet₃.trans (hquiet₅.trans hquiet₆)).tracked
  refine ⟨target, s₁.here, s₂.here, s₁.tracked, hexits, hP, hbody, ?_, ?_⟩
  · rw [htracked]
    exact hupdate
  · rw [htracked, hsame]
    rw [hquiet₃.known, hsame₃] at hback
    exact hback

/-- The code of a loop at the site of its rounds. -/
def YieldsLoop (site : Site) (cond : Option Expr) (body : Stmt) (update : Option Stmt)
    (code : Gen Unit) : Prop :=
  ∀ ⦃s s' : GenState⦄, code s = .ok () s' → Emits s s' [] fun im _ =>
    Stmt.LoopCode im site cond body update s.tracked s.here s'.here s'.tracked

/-- A loop tests its condition once before the rounds, and again at the end of each. -/
theorem yieldsLoop_loop {line : Nat} {cond : Option Expr} {body : Stmt} {update : Option Stmt}
    {codeCond : Bool → Gen Cond} {codeBody codeUpdate : Gen Unit}
    (hcond : ∀ when, YieldsTest site cond when (codeCond when))
    (hbody : YieldsStmt site body codeBody) (hupdate : YieldsOption site update codeUpdate) :
    YieldsLoop site cond body update (loop line codeCond codeBody codeUpdate) := by
  intro s s' hloop
  obtain ⟨outcome, s₁, hcode, hloop⟩ := bind_eq_ok_iff.1 hloop
  obtain ⟨hquiet₁, htest⟩ := hcond false hcode
  cases outcome with
  | known outcome =>
    cases outcome with
    | false =>
      obtain ⟨-, rfl⟩ := pure_eq_ok_iff.1 hloop
      refine htest.weaken fun im _ htest => ?_
      have htest := htest 0 (by simp [Cond.labels])
      have hsame := htest.eq_of_known (by simp [Cond.outcome?])
      rw [hquiet₁.tracked, ← hsame]
      rw [← hsame] at htest
      exact .skip htest
    | true =>
      refine (rounds_emits (hcond true) hbody hupdate htest hloop).weaken fun im _ hshape => ?_
      obtain ⟨target, b, c, φ', -, htest, hbody, hupdate, hback⟩ := hshape
      have htest := htest 0 (by simp [Cond.labels])
      have hsame := htest.eq_of_known (by simp [Cond.outcome?])
      rw [hquiet₁.tracked, ← hsame] at hbody
      rw [← hsame] at htest hback
      exact .forever htest hbody hupdate hback
  | jumps exits =>
    refine (rounds_emits (hcond true) hbody hupdate htest hloop).weaken fun im _ hshape => ?_
    obtain ⟨target, b, c, φ', hexits, htest, hbody, hupdate, hback⟩ := hshape
    rw [hquiet₁.tracked] at hbody
    exact .test (htest _ hexits) hbody hupdate hback

theorem yieldsStmt_while {span : Span} {cond : Expr} {body : Stmt} {code : Gen Unit}
    (hloop : YieldsLoop site.loop (some cond) body none code) :
    YieldsStmt site (.while span cond body) code := by
  intro s s' hcode
  exact (hloop hcode).weaken fun im _ hloop => .while hloop

/-- The variable of a loop is given back when the loop ends. -/
theorem yieldsStmt_for {span : Span} {init update : Option Stmt} {cond : Option Expr} {body : Stmt}
    {codeInit codeLoop : Gen Unit} (hinit : YieldsOption site init codeInit)
    (hloop : YieldsLoop site.loop cond body update codeLoop) :
    YieldsStmt site (.for span init cond update body) (do
      let mark := (← get).nextLocal
      codeInit
      codeLoop
      release mark) := by
  intro s s' hfor
  obtain ⟨_, _, hget, hfor⟩ := bind_eq_ok_iff.1 hfor
  obtain ⟨rfl, rfl⟩ := get_eq_ok_iff.1 hget
  obtain ⟨_, s₁, hcodeInit, hfor⟩ := bind_eq_ok_iff.1 hfor
  obtain ⟨_, s₂, hcodeLoop, hrelease⟩ := bind_eq_ok_iff.1 hfor
  obtain ⟨htracked, hrelease⟩ := release_emits hrelease
  refine ((hinit hcodeInit).trans ((hloop hcodeLoop).trans hrelease)).weaken fun im _ hshape => ?_
  obtain ⟨hinit, hloop, hpop⟩ := hshape
  rw [htracked]
  exact .for hinit hloop hpop

end Gen

namespace Stmt

open Gen

mutual

/-- The code of a statement has its shape, in every finished program. -/
theorem gen_yields (site : Site) : (stmt : Stmt) → YieldsStmt site stmt (stmt.gen site)
  | block _ stmts => yieldsStmt_line (yieldsStmt_block (genAll_yields site stmts))
  | varDecl _ _ init => yieldsStmt_line (yieldsStmt_varDecl (init.genValue_yields site))
  | assign _ _ value => yieldsStmt_line (yieldsStmt_assign (value.genValue_yields site))
  | indexAssign _ _ subscript value =>
    yieldsStmt_line
      (yieldsStmt_indexAssign (subscript.genPush_pushes site) (value.genPush_pushes site))
  | call _ _ args => yieldsStmt_line (yieldsStmt_call (Expr.genArgs_pushes site args))
  | .return _ (some value) => yieldsStmt_line (yieldsStmt_returnValue (value.genPush_pushes site))
  | .return _ none => yieldsStmt_line yieldsStmt_return
  | ifElse _ cond onTrue none =>
    yieldsStmt_line (yieldsStmt_ifOnly (cond.genCond_yields site false)
      fun site => gen_yields site onTrue)
  | ifElse _ cond onTrue (some onFalse) =>
    yieldsStmt_line (yieldsStmt_ifElse (cond.genCond_yields site false)
      (fun site => gen_yields site onTrue) fun site => gen_yields site onFalse)
  | .while _ cond body =>
    yieldsStmt_line (yieldsStmt_while (yieldsLoop_loop
      (fun when => loopCond_yields (some cond) when fun expr _ => expr.genCond_yields site.loop when)
      (gen_yields site.loop body) yieldsOption_none))
  | .for _ init cond update body =>
    yieldsStmt_line (yieldsStmt_for (genOption_yields site init) (yieldsLoop_loop
      (fun when => loopCond_yields cond when fun expr _ => expr.genCond_yields site.loop when)
      (gen_yields site.loop body) (genOption_yields site.loop update)))

theorem genOption_yields (site : Site) :
    (stmt : Option Stmt) → YieldsOption site stmt (genOption site stmt)
  | none => yieldsOption_none
  | some stmt => (gen_yields site stmt).some

theorem genAll_yields (site : Site) :
    (stmts : List Stmt) → YieldsAll site stmts (genAll site stmts)
  | [] => yieldsAll_nil
  | stmt :: rest => (gen_yields site stmt).cons (genAll_yields site rest)

end

end Stmt

end SmallJava
