import SmallJava.Proofs.Codegen.Image

namespace SmallJava

variable {im : Image}

namespace Reference

theorem PushCode.le {ref : Reference} {a b : Nat} (h : ref.PushCode im a b) : a ≤ b := by
  induction h with
  | length _ _ _ _ ih => omega
  | field _ _ _ _ _ _ _ _ ih => omega
  | _ => omega

theorem DestinationCode.le {ref : Reference} {destination : Destination} {a b : Nat}
    (h : ref.DestinationCode im destination a b) : a ≤ b := by
  cases h with
  | field _ _ _ _ _ howner _ =>
    have hle := howner.le
    omega
  | _ => omega

theorem ReceiverCode.le {ref : Reference} {a b : Nat} (h : ref.ReceiverCode im a b) : a ≤ b := by
  cases h with
  | explicit howner => exact howner.le
  | implicit => omega

theorem InvokeCode.le {ref : Reference} {m : SymbolId} {a b : Nat} (h : ref.InvokeCode im m a b) :
    a ≤ b := by
  cases h with
  | static => omega
  | «instance» _ _ _ _ hreceiver _ =>
    have hle := hreceiver.le
    omega

end Reference

namespace Expr

variable {fold : Folding}

mutual

/-- Code of an expression does not end before it starts. -/
theorem ValueCode.le {expr : Expr} {value : Value} {a b : Nat} :
    expr.ValueCode im fold value a b → a ≤ b
  | .constant _ => Nat.le_refl _
  | .unary hoperand _ => Nat.le_succ_of_le hoperand.le
  | .binary _ hleft hright _ => Nat.le_succ_of_le (Nat.le_trans hleft.le hright.le)
  | .leftDecides _ _ => Nat.le_refl _
  | .rightRemains _ _ _ hright => hright.le
  | .rightDecides _ hleft _ _ => Nat.le_succ_of_le hleft.le
  | .leftRemains _ hleft _ _ => hleft.le
  | .logical _ hleft _ hright _ _ => by
    have hle := hleft.le
    have hle' := hright.le
    omega
  | .choiceKnown _ hchosen => hchosen.le
  | .choice hcond hTrue _ hFalse => by
    have hle := hcond.le
    have hle' := hTrue.le
    have hle'' := hFalse.le
    omega
  | .ref htarget => htarget.le
  | .index htarget hsubscript _ => Nat.le_succ_of_le (Nat.le_trans htarget.le hsubscript.le)
  | .call hargs hinvoke => Nat.le_trans hargs.le hinvoke.le
  | .newObject .. => by omega
  | .newArray hsize _ => Nat.le_succ_of_le hsize.le

theorem PushCode.le {expr : Expr} {a b : Nat} : expr.PushCode im fold a b → a ≤ b
  | .known hvalue _ => Nat.le_succ_of_le hvalue.le
  | .onStack hvalue => hvalue.le

theorem CondCode.le {expr : Expr} {when : Bool} {outcome : Option Bool} {a b t : Nat} :
    expr.CondCode im fold when outcome a b t → a ≤ b
  | .constant _ => Nat.le_refl _
  | .not hoperand => hoperand.le
  | .either _ hleft hright => Nat.le_trans hleft.le hright.le
  | .both _ hleft hright => Nat.le_trans hleft.le hright.le
  | .test hvalue _ => Nat.le_succ_of_le hvalue.le

theorem JumpCode.le {expr : Expr} {when : Bool} {a b t : Nat} :
    expr.JumpCode im fold when a b t → a ≤ b
  | .always _ _ => by omega
  | .never _ => Nat.le_refl _
  | .test hcond => hcond.le

theorem ArgsCode.le {args : List Expr} {a b : Nat} : Expr.ArgsCode im fold args a b → a ≤ b
  | .nil => Nat.le_refl _
  | .cons harg hrest => Nat.le_trans harg.le hrest.le

end

end Expr

theorem PopCode.le {count : Int} {a b : Nat} (h : PopCode im count a b) : a ≤ b := by
  cases h <;> omega

theorem TestCode.le {fold : Folding} {cond : Option Expr} {when : Bool} {outcome : Option Bool}
    {a b t : Nat} (h : TestCode im fold cond when outcome a b t) : a ≤ b := by
  cases h with
  | none => omega
  | some hcond => exact hcond.le

theorem BackCode.le {fold : Folding} {cond : Option Expr} {a b start : Nat}
    (h : BackCode im fold cond a b start) : a ≤ b := by
  cases h with
  | always => omega
  | never => omega
  | test htest => exact htest.le

namespace Stmt

mutual

/-- Code of a statement does not end before it starts. -/
theorem Code.le {site : Site} {stmt : Stmt} {φ φ' : Tracked} {a b : Nat} :
    stmt.Code im site φ a b φ' → a ≤ b
  | .block hstmts hpop => Nat.le_trans hstmts.le hpop.le
  | .varDeclKnown _ _ hinit _ => Nat.le_succ_of_le hinit.le
  | .varDecl _ _ hinit => hinit.le
  | .assignKnown htarget hvalue _ _ => by
    have hle := htarget.le
    have hle' := hvalue.le
    omega
  | .assign htarget hvalue _ => Nat.le_succ_of_le (Nat.le_trans htarget.le hvalue.le)
  | .indexAssign htarget hsubscript hvalue _ =>
    Nat.le_succ_of_le (Nat.le_trans htarget.le (Nat.le_trans hsubscript.le hvalue.le))
  | .call hargs hinvoke hpop => Nat.le_trans hargs.le (Nat.le_trans hinvoke.le hpop.le)
  | .returnValue hvalue _ => Nat.le_succ_of_le hvalue.le
  | .return _ => by omega
  | .ifTrue _ hTrue => hTrue.le
  | .ifFalse _ hFalse => hFalse.le
  | .ifOnly hcond hTrue => Nat.le_trans hcond.le hTrue.le
  | .ifElse hcond hTrue _ hFalse => by
    have hle := hcond.le
    have hle' := hTrue.le
    have hle'' := hFalse.le
    omega
  | .while hloop => hloop.le
  | .for hinit hloop hpop => Nat.le_trans hinit.le (Nat.le_trans hloop.le hpop.le)

theorem LoopCode.le {site : Site} {cond : Option Expr} {body : Stmt} {update : Option Stmt}
    {φ φ' : Tracked} {a b : Nat} : LoopCode im site cond body update φ a b φ' → a ≤ b
  | .skip _ => Nat.le_refl _
  | .forever _ hbody hupdate hback =>
    Nat.le_trans hbody.le (Nat.le_trans hupdate.le hback.le)
  | .test htest hbody hupdate hback =>
    Nat.le_trans htest.le (Nat.le_trans hbody.le (Nat.le_trans hupdate.le hback.le))

theorem OptionCode.le {site : Site} {stmt : Option Stmt} {φ φ' : Tracked} {a b : Nat} :
    OptionCode im site stmt φ a b φ' → a ≤ b
  | .none => Nat.le_refl _
  | .some hstmt => hstmt.le

theorem ListCode.le {site : Site} {stmts : List Stmt} {φ φ' : Tracked} {a b : Nat} :
    ListCode im site stmts φ a b φ' → a ≤ b
  | .nil => Nat.le_refl _
  | .cons hstmt hrest => Nat.le_trans hstmt.le hrest.le

end

end Stmt

theorem MethodDef.Code.le {options : Options} {method : MethodDef} {a b : Nat}
    (h : method.Code im options a b) : a ≤ b := by
  cases h with
  | falls _ _ hbody => exact Nat.le_succ_of_le hbody.le
  | returns _ _ hbody => exact hbody.le

theorem MethodDef.ListCode.le {options : Options} {methods : List MethodDef} {a b : Nat}
    (h : MethodDef.ListCode im options methods a b) : a ≤ b := by
  induction h with
  | nil => exact Nat.le_refl _
  | cons hmethod _ ih => exact Nat.le_trans hmethod.le ih

end SmallJava
