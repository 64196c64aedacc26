import SmallJava.Proofs.Codegen.Extent
import SmallJava.Proofs.Flow.Region

namespace SmallJava

/-- Where control can go after the instruction at an address. A call comes back to the
    next instruction. -/
def Instruction.successors (instr : Instruction) (address : Nat) : List Int :=
  match instr.op with
  | .jump => [instr.d]
  | .jumpif => [instr.d, (address + 1 : Nat)]
  | .return => []
  | _ => [((address + 1 : Nat) : Int)]

theorem Instruction.successors_jump {a t : Nat} (htarget : t < 0x80000000) :
    (jump t).successors a = [(t : Int)] := by
  simp only [successors, jump, Address.toOperand_of_lt htarget]

theorem Instruction.successors_jumpIf {value : Int} {a t : Nat} (htarget : t < 0x80000000) :
    (jumpIf value t).successors a = [(t : Int), ((a + 1 : Nat) : Int)] := by
  simp only [successors, jumpIf, Address.toOperand_of_lt htarget]

/-- Control can get from one address to another without leaving the method by a return. -/
inductive Code.Reaches (code : Code) (start : Int) : Int → Prop
  | start : Reaches code start start
  | step {a : Nat} {b : Int} {instr} (hreach : Reaches code start a)
      (hfetch : code.get? a = some instr) (hnext : b ∈ instr.successors a) : Reaches code start b

namespace Image

/-- Control alone, whatever the machine holds. -/
def control (im : Image) : Flow Unit where
  ok a _ next := ∃ instr, im.Holds a instr ∧ ∀ d ∈ instr.successors a, ∃ b : Nat, d = b ∧ next b ()
  mono := by
    rintro a s next next' himp ⟨instr, hholds, hnext⟩
    refine ⟨instr, hholds, fun d hmem => ?_⟩
    obtain ⟨b, rfl, hb⟩ := hnext d hmem
    exact ⟨b, rfl, himp b () hb⟩

end Image

/-- What control reaches from a place that it never leaves is within the bounds. -/
theorem Code.Reaches.bounds {im : Image} {code : Code} (hcode : im.fetch = code.get?) {lo hi a : Nat}
    (hstays : im.control.Stays lo hi Flow.Nowhere a ()) {b : Int} (hreach : code.Reaches a b) :
    lo ≤ b ∧ b < hi := by
  obtain ⟨region, hregion, hin⟩ := hstays
  suffices hinside : ∃ n : Nat, b = n ∧ region n () by
    obtain ⟨n, rfl, hn⟩ := hinside
    have hbounds := hregion.bounds n () hn
    omega
  induction hreach with
  | start => exact ⟨a, rfl, hin⟩
  | @step c b instr _ hfetch hnext ih =>
    obtain ⟨n, heq, hn⟩ := ih
    obtain rfl : c = n := Int.ofNat.inj heq
    obtain ⟨instr', hholds, hall⟩ := hregion.closed c () hn
    have hsame : instr' = instr := by
      unfold Image.Holds at hholds
      rw [hcode, hfetch] at hholds
      exact (Option.some.inj hholds).symm
    obtain ⟨n, rfl, hnext | hexit⟩ := hall b (hsame ▸ hnext)
    · exact ⟨n, rfl, hnext⟩
    · exact hexit.elim

section Passes

open SmallJava.Flow

variable {im : Image} {exits : Nat → Unit → Prop}

namespace Image

variable {a t : Nat} {instr : Instruction}

theorem Holds.through (hholds : im.Holds a instr)
    (hnext : instr.successors a = [((a + 1 : Nat) : Int)]) :
    im.control.Through a (a + 1) exits a () (a + 1) () := by
  refine .step ⟨instr, hholds, fun d hmem => ?_⟩
  rw [hnext] at hmem
  obtain rfl := List.mem_singleton.1 hmem
  exact ⟨a + 1, rfl, also_self⟩

/-- A jump within the range of operands goes where it is meant to go. -/
theorem Holds.jumps (hholds : im.Holds a (.jump t)) (htarget : t < 0x80000000)
    (hexit : exits t ()) : im.control.Stays a (a + 1) exits a () := by
  refine .one ⟨_, hholds, fun d hmem => ?_⟩
  rw [Instruction.successors_jump htarget, List.mem_singleton] at hmem
  exact ⟨t, hmem, hexit⟩

theorem Holds.jumpsTo (hholds : im.Holds a (.jump t)) (htarget : t < 0x80000000) :
    im.control.Through a (a + 1) exits a () t () :=
  ⟨Nat.le_succ a, .inr (hholds.jumps htarget also_self)⟩

/-- A conditional jump goes on to the next address, or leaves by the exit that it jumps to. -/
theorem Holds.jumpsIf {value : Int} (hholds : im.Holds a (.jumpIf value t))
    (htarget : t < 0x80000000) (hexit : exits t ()) :
    im.control.Through a (a + 1) exits a () (a + 1) () := by
  refine .step ⟨_, hholds, fun d hmem => ?_⟩
  simp only [Instruction.successors_jumpIf htarget, List.mem_cons, List.not_mem_nil, or_false] at hmem
  obtain rfl | rfl := hmem
  · exact ⟨t, rfl, also_of hexit⟩
  · exact ⟨a + 1, rfl, also_self⟩

theorem Holds.returns {results args : Int} (hholds : im.Holds a (.returnWith results args)) :
    im.control.Stays a (a + 1) exits a () :=
  .one ⟨_, hholds, fun _ hmem => absurd hmem List.not_mem_nil⟩

end Image

namespace Reference

/-- Control gets through the code that pushes a path. -/
theorem PushCode.control {ref : Reference} {a b : Nat} (h : ref.PushCode im a b) :
    im.control.Through a b exits a () b () := by
  induction h with
  | this hload => exact hload.through rfl
  | «variable» _ _ _ hload => exact hload.through rfl
  | length _ _ _ hlen ih => exact ih.trans (hlen.through rfl)
  | staticField _ _ _ _ hload => exact hload.through rfl
  | ownField _ _ _ _ _ hload => exact hload.through rfl
  | field _ _ _ _ _ _ hoffset hload ih =>
    refine .trans ih ?_
    refine .trans (hoffset.through rfl) ?_
    exact hload.through rfl

theorem DestinationCode.control {ref : Reference} {destination : Destination} {a b : Nat}
    (h : ref.DestinationCode im destination a b) : im.control.Through a b exits a () b () := by
  cases h with
  | field _ _ _ _ _ howner hoffset => exact howner.control.trans (hoffset.through rfl)
  | _ => exact .refl _ _ _

theorem ReceiverCode.control {callee : Reference} {a b : Nat} (h : callee.ReceiverCode im a b) :
    im.control.Through a b exits a () b () := by
  cases h with
  | explicit howner => exact howner.control
  | implicit _ hload => exact hload.through rfl

theorem InvokeCode.control {callee : Reference} {m : SymbolId} {a b : Nat}
    (h : callee.InvokeCode im m a b) : im.control.Through a b exits a () b () := by
  cases h with
  | static _ _ _ _ hcall => exact hcall.through rfl
  | «instance» _ _ _ _ hreceiver hcall => exact hreceiver.control.trans (hcall.through rfl)

end Reference

namespace Expr

variable {fold : Folding}

mutual

/-- Control gets through the code of an expression, whatever is known of its value. -/
theorem ValueCode.control {exits : Nat → Unit → Prop} {expr : Expr} {value : Value} {a b : Nat}
    (hfits : b < 0x80000000) :
    expr.ValueCode im fold value a b → im.control.Through a b exits a () b ()
  | .constant _ => .refl _ _ _
  | .unary hoperand hop => (hoperand.control (by omega)).trans (hop.through rfl)
  | .binary _ hleft hright hop => by
    have hle := hright.le
    refine .trans (hleft.control (by omega)) ?_
    refine .trans (hright.control (by omega)) ?_
    exact hop.through rfl
  | .leftDecides _ _ => .refl _ _ _
  | .rightRemains _ _ _ hright => hright.control hfits
  | .rightDecides _ hleft _ hpop => (hleft.control (by omega)).trans (hpop.through rfl)
  | .leftRemains _ hleft _ _ => hleft.control hfits
  | .logical _ hleft hshort hright hdone hdecisive => by
    have hle := hright.le
    refine .join ?_ (hdecisive.through rfl)
    refine .trans (hleft.control (by omega)) ?_
    refine .trans (hshort.jumpsIf (by omega) also_self) ?_
    refine .trans (hright.control (by omega)) ?_
    exact hdone.jumpsTo (by omega)
  | .choiceKnown _ hchosen => hchosen.control hfits
  | .choice hcond hTrue hdone hFalse => by
    have hle := hTrue.le
    have hle' := hFalse.le
    refine .join ?_ (hFalse.control (by omega))
    refine .trans (hcond.control (by omega) (by omega) also_self) ?_
    refine .trans (hTrue.control (by omega)) ?_
    exact hdone.jumpsTo (by omega)
  | .ref htarget => htarget.control
  | .index htarget hsubscript hload => by
    refine .trans htarget.control ?_
    refine .trans (hsubscript.control (by omega)) ?_
    exact hload.through rfl
  | .call hargs hinvoke => by
    have hle := hinvoke.le
    exact (hargs.control (by omega)).trans hinvoke.control
  | .newObject _ _ hheader hsize hnew => by
    refine .trans (hheader.through rfl) ?_
    refine .trans (hsize.through rfl) ?_
    exact hnew.through rfl
  | .newArray hsize hnew => (hsize.control (by omega)).trans (hnew.through rfl)

theorem PushCode.control {exits : Nat → Unit → Prop} {expr : Expr} {a b : Nat}
    (hfits : b < 0x80000000) :
    expr.PushCode im fold a b → im.control.Through a b exits a () b ()
  | .known hvalue hliteral => (hvalue.control (by omega)).trans (hliteral.through rfl)
  | .onStack hvalue => hvalue.control hfits

/-- Control gets through the code of a condition, or leaves by the exit that the condition jumps to.
    -/
theorem CondCode.control {exits : Nat → Unit → Prop} {expr : Expr} {when : Bool}
    {outcome : Option Bool} {a b t : Nat} (hfits : b < 0x80000000) (htarget : t < 0x80000000)
    (hexit : exits t ()) :
    expr.CondCode im fold when outcome a b t → im.control.Through a b exits a () b ()
  | .constant _ => .refl _ _ _
  | .not hoperand => hoperand.control hfits htarget hexit
  | .either _ hleft hright => by
    have hle := hright.le
    exact (hleft.control (by omega) htarget hexit).trans (hright.control hfits htarget hexit)
  | .both _ hleft hright => by
    have hle := hright.le
    apply Through.settle
    exact (hleft.control (by omega) (by omega) also_self).trans
      (hright.control hfits htarget (also_of hexit))
  | .test hvalue hjump => (hvalue.control (by omega)).trans (hjump.jumpsIf htarget hexit)

theorem JumpCode.control {exits : Nat → Unit → Prop} {expr : Expr} {when : Bool} {a b t : Nat}
    (hfits : b < 0x80000000) (htarget : t < 0x80000000) (hexit : exits t ()) :
    expr.JumpCode im fold when a b t → im.control.Through a b exits a () b ()
  | .always _ hjump => .leaves (Nat.le_succ a) (hjump.jumps htarget hexit)
  | .never _ => .refl _ _ _
  | .test hcond => hcond.control hfits htarget hexit

/-- Control gets through the code of all arguments. -/
theorem ArgsCode.control {exits : Nat → Unit → Prop} {args : List Expr} {a b : Nat}
    (hfits : b < 0x80000000) :
    Expr.ArgsCode im fold args a b → im.control.Through a b exits a () b ()
  | .nil => .refl _ _ _
  | .cons harg hrest => by
    have hle := hrest.le
    exact (harg.control (by omega)).trans (hrest.control hfits)

end

end Expr

theorem PopCode.control {count : Int} {a b : Nat} (h : PopCode im count a b) :
    im.control.Through a b exits a () b () := by
  cases h with
  | some _ hpop => exact hpop.through rfl
  | none => exact .refl _ _ _

/-- Control gets through the one instruction of a store. -/
theorem StoreCode.control {site : Site} {target : Reference} {value : Value}
    {known known' : Dict SymbolId Word} {destination : Destination} {a : Nat}
    (h : StoreCode im site target value known destination a known') :
    im.control.Through a (a + 1) exits a () (a + 1) () := by
  cases h with
  | «variable» hstore => exact hstore.through rfl
  | field _ hstore => exact hstore.through rfl
  | otherField hstore => exact hstore.through rfl

/-- Control gets through the test before a loop, or leaves by the exit. -/
theorem TestCode.control {fold : Folding} {cond : Option Expr} {when : Bool}
    {outcome : Option Bool} {a b t : Nat} (h : TestCode im fold cond when outcome a b t)
    (hfits : b < 0x80000000) (htarget : t < 0x80000000) (hexit : exits t ()) :
    im.control.Through a b exits a () b () := by
  cases h with
  | none => exact .refl _ _ _
  | some hcond => exact hcond.control hfits htarget hexit

/-- Control gets through the test after a round, or leaves for the start of the loop. -/
theorem BackCode.control {fold : Folding} {cond : Option Expr} {a b start : Nat}
    (h : BackCode im fold cond a b start) (hfits : b < 0x80000000) (hstart : start < 0x80000000)
    (hexit : exits start ()) : im.control.Through a b exits a () b () := by
  cases h with
  | always _ hjump => exact .leaves (Nat.le_succ a) (hjump.jumps hstart hexit)
  | never _ => exact .refl _ _ _
  | test htest => exact htest.control hfits hstart hexit

namespace Stmt

mutual

/-- Control gets through the code of a statement, unless the statement returns. -/
theorem Code.control {exits : Nat → Unit → Prop} {site : Site} {stmt : Stmt} {φ φ' : Tracked}
    {a b : Nat} (hfits : b < 0x80000000) :
    stmt.Code im site φ a b φ' → im.control.Through a b exits a () b ()
  | .block hstmts hpop => by
    have hle := hpop.le
    exact (hstmts.control (by omega)).trans hpop.control
  | .varDeclKnown _ _ hinit hliteral => (hinit.control (by omega)).trans (hliteral.through rfl)
  | .varDecl _ _ hinit => hinit.control hfits
  | .assignKnown htarget hvalue hliteral hstore => by
    refine .trans htarget.control ?_
    refine .trans (hvalue.control (by omega)) ?_
    refine .trans (hliteral.through rfl) ?_
    exact hstore.control
  | .assign htarget hvalue hstore => by
    refine .trans htarget.control ?_
    refine .trans (hvalue.control (by omega)) ?_
    exact hstore.control
  | .indexAssign htarget hsubscript hvalue hstore => by
    have hle := hvalue.le
    refine .trans htarget.control ?_
    refine .trans (hsubscript.control (by omega)) ?_
    refine .trans (hvalue.control (by omega)) ?_
    exact hstore.through rfl
  | .call hargs hinvoke hpop => by
    have hle := hinvoke.le
    have hle' := hpop.le
    refine .trans (hargs.control (by omega)) ?_
    refine .trans hinvoke.control ?_
    exact hpop.control
  | .returnValue hvalue hreturn => by
    have hle := hvalue.le
    exact .leaves (by omega) ((hvalue.control (by omega)).stays hreturn.returns)
  | .return hreturn => .leaves (Nat.le_succ a) hreturn.returns
  | .ifTrue _ hTrue => hTrue.control hfits
  | .ifFalse _ hFalse => hFalse.control hfits
  | .ifOnly hcond hTrue => by
    have hle := hTrue.le
    exact ((hcond.control (by omega) hfits also_self).trans (hTrue.control hfits)).settle
  | .ifElse hcond hTrue hdone hFalse => by
    have hle := hTrue.le
    have hle' := hFalse.le
    refine .join ?_ (hFalse.control (by omega))
    refine .trans (hcond.control (by omega) (by omega) also_self) ?_
    refine .trans (hTrue.control (by omega)) ?_
    exact hdone.jumpsTo (by omega)
  | .while hloop => hloop.control hfits
  | .for hinit hloop hpop => by
    have hle := hloop.le
    have hle' := hpop.le
    refine .trans (hinit.control (by omega)) ?_
    refine .trans (hloop.control (by omega)) ?_
    exact hpop.control

/-- Control gets through the code of a loop. Its start is an exit of the code of a round, and no
    exit of the loop. -/
theorem LoopCode.control {exits : Nat → Unit → Prop} {site : Site} {cond : Option Expr}
    {body : Stmt} {update : Option Stmt} {φ φ' : Tracked} {a b : Nat} (hfits : b < 0x80000000) :
    LoopCode im site cond body update φ a b φ' → im.control.Through a b exits a () b ()
  | .skip _ => .refl _ _ _
  | .forever _ hbody hupdate hback => by
    have hle := hbody.le
    have hle' := hupdate.le
    have hle'' := hback.le
    apply Through.loop
    refine .trans (hbody.control (by omega)) ?_
    refine .trans (hupdate.control (by omega)) ?_
    exact hback.control hfits (by omega) also_self
  | .test htest hbody hupdate hback => by
    have hle := hbody.le
    have hle' := hupdate.le
    have hle'' := hback.le
    apply Through.settle
    apply (htest.control (by omega) hfits also_self).trans
    apply Through.loop
    refine .trans (hbody.control (by omega)) ?_
    refine .trans (hupdate.control (by omega)) ?_
    exact hback.control hfits (by omega) also_self

theorem OptionCode.control {exits : Nat → Unit → Prop} {site : Site} {stmt : Option Stmt}
    {φ φ' : Tracked} {a b : Nat} (hfits : b < 0x80000000) :
    OptionCode im site stmt φ a b φ' → im.control.Through a b exits a () b ()
  | .none => .refl _ _ _
  | .some hstmt => hstmt.control hfits

/-- Control gets through the code of statements in a row. -/
theorem ListCode.control {exits : Nat → Unit → Prop} {site : Site} {stmts : List Stmt}
    {φ φ' : Tracked} {a b : Nat} (hfits : b < 0x80000000) :
    ListCode im site stmts φ a b φ' → im.control.Through a b exits a () b ()
  | .nil => .refl _ _ _
  | .cons hstmt hrest => by
    have hle := hrest.le
    exact (hstmt.control (by omega)).trans (hrest.control hfits)

end

/-- A choice that always returns has two branches that always return. -/
theorem alwaysReturns_ifElse {span : Span} {cond : Expr} {onTrue : Stmt} {onFalse : Option Stmt}
    (hreturns : (ifElse span cond onTrue onFalse).alwaysReturns = true) :
    onTrue.alwaysReturns = true ∧ ∀ stmt ∈ onFalse, stmt.alwaysReturns = true := by
  cases onFalse with
  | none => simp [alwaysReturns] at hreturns
  | some onFalse =>
    obtain ⟨hTrue, hFalse⟩ := Bool.and_eq_true_iff.1 (by simpa [alwaysReturns] using hreturns)
    refine ⟨hTrue, ?_⟩
    rintro _ ⟨⟩
    exact hFalse

mutual

/-- Control never gets to the end of a statement that always returns. -/
theorem Code.control_of_returns {site : Site} {stmt : Stmt} {φ φ' : Tracked} {a b : Nat}
    (hfits : b < 0x80000000) :
    stmt.Code im site φ a b φ' → stmt.alwaysReturns = true → im.control.Stays a b Nowhere a ()
  | .block hstmts hpop => by
    intro hreturns
    have hle := hpop.le
    exact (hstmts.control_of_returns (by omega) hreturns).widen (Nat.le_refl _) hle
  | .returnValue hvalue hreturn => fun _ => (hvalue.control (by omega)).stays hreturn.returns
  | .return hreturn => fun _ => hreturn.returns
  | .ifTrue _ hTrue => fun hreturns => hTrue.control_of_returns hfits (alwaysReturns_ifElse hreturns).1
  | .ifFalse _ .none => fun hreturns => by simp [alwaysReturns] at hreturns
  | .ifFalse _ (.some hFalse) => by
    intro hreturns
    exact hFalse.control_of_returns hfits ((alwaysReturns_ifElse hreturns).2 _ rfl)
  | .varDeclKnown .. | .varDecl .. | .assignKnown .. | .assign .. | .indexAssign .. | .call ..
  | .ifOnly .. | .while .. | .for .. => fun hreturns => by simp [alwaysReturns] at hreturns
  | .ifElse hcond hTrue _ hFalse => by
    intro hreturns
    have hle := hTrue.le
    have hle' := hFalse.le
    obtain ⟨hreturns, hreturns'⟩ := alwaysReturns_ifElse hreturns
    refine .join (Stays.widen ?_ (Nat.le_refl _) (Nat.le_succ _))
      (hFalse.control_of_returns hfits (hreturns' _ rfl))
    exact (hcond.control (by omega) (by omega) also_self).stays
      ((hTrue.control_of_returns (by omega) hreturns).weaken fun _ _ => False.elim)

/-- Control does not get to the end of statements that always return. -/
theorem ListCode.control_of_returns {site : Site} {stmts : List Stmt} {φ φ' : Tracked} {a b : Nat}
    (hfits : b < 0x80000000) :
    ListCode im site stmts φ a b φ' → allReturn stmts = true → im.control.Stays a b Nowhere a ()
  | .cons hstmt .nil, hreturns => hstmt.control_of_returns hfits hreturns
  | .cons hstmt (.cons hnext hrest), hreturns => by
    have hle := (ListCode.cons hnext hrest).le
    exact (hstmt.control (by omega)).stays
      ((ListCode.cons hnext hrest).control_of_returns hfits hreturns)

end

end Stmt

end Passes

end SmallJava
