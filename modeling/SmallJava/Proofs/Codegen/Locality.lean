import SmallJava.Proofs.Codegen.Extent

namespace SmallJava

/-- Another memory has the same instructions between two addresses. -/
def Image.SameOn (im : Image) (fetch : Address → Option Instruction) (lo hi : Nat) : Prop :=
  ∀ a : Nat, lo ≤ a → a < hi → fetch a = im.fetch a

/-- The program with another memory. -/
def Image.inMemory (im : Image) (fetch : Address → Option Instruction) : Image := { im with fetch }

variable {im : Image} {fetch : Address → Option Instruction}

namespace Image.SameOn

variable {lo hi lo' hi' a : Nat} {instr : Instruction}

theorem narrow (h : im.SameOn fetch lo hi) (hlo : lo ≤ lo') (hhi : hi' ≤ hi) :
    im.SameOn fetch lo' hi' :=
  fun a hge hlt => h a (Nat.le_trans hlo hge) (Nat.lt_of_lt_of_le hlt hhi)

theorem holds (h : im.SameOn fetch lo hi) (hge : lo ≤ a) (hlt : a < hi) (hholds : im.Holds a instr) :
    (im.inMemory fetch).Holds a instr :=
  (h a hge hlt).trans hholds

end Image.SameOn

namespace Reference

/-- The code of a path is what stands between its addresses. -/
theorem PushCode.inMemory {ref : Reference} {a b : Nat} (h : ref.PushCode im a b)
    (hsame : im.SameOn fetch a b) : ref.PushCode (im.inMemory fetch) a b := by
  induction h with
  | this hload => exact .this (hsame.holds (by omega) (by omega) hload)
  | «variable» hbound hbase hslot hload =>
    exact .variable hbound hbase hslot (hsame.holds (by omega) (by omega) hload)
  | length hbound hkind howner hlen ih =>
    have hle := howner.le
    exact .length hbound hkind (ih (hsame.narrow (by omega) (by omega)))
      (hsame.holds (by omega) (by omega) hlen)
  | staticField hbound hkind hstatic hslot hload =>
    exact .staticField hbound hkind hstatic hslot (hsame.holds (by omega) (by omega) hload)
  | ownField hbound hkind hstatic hthis hslot hload =>
    exact .ownField hbound hkind hstatic hthis hslot (hsame.holds (by omega) (by omega) hload)
  | field hbound hkind hstatic hthis howner hslot hoffset hload ih =>
    have hle := howner.le
    exact .field hbound hkind hstatic hthis (ih (hsame.narrow (by omega) (by omega))) hslot
      (hsame.holds (by omega) (by omega) hoffset) (hsame.holds (by omega) (by omega) hload)

theorem ReceiverCode.inMemory {callee : Reference} {a b : Nat} (h : callee.ReceiverCode im a b)
    (hsame : im.SameOn fetch a b) : callee.ReceiverCode (im.inMemory fetch) a b := by
  cases h with
  | explicit howner => exact .explicit (howner.inMemory hsame)
  | implicit hcallee hload => exact .implicit hcallee (hsame.holds (by omega) (by omega) hload)

/-- The code of an invocation is found in any memory that holds the same words there. -/
theorem InvokeCode.inMemory {callee : Reference} {m : SymbolId} {a b : Nat}
    (h : callee.InvokeCode im m a b) (hsame : im.SameOn fetch a b) :
    callee.InvokeCode (im.inMemory fetch) m a b := by
  cases h with
  | static hbound hkind hstatic hentry hcall =>
    exact .static hbound hkind hstatic hentry (hsame.holds (by omega) (by omega) hcall)
  | «instance» hbound hkind hstatic hentry hreceiver hcall =>
    have hle := hreceiver.le
    exact .instance hbound hkind hstatic hentry
      (hreceiver.inMemory (hsame.narrow (by omega) (by omega)))
      (hsame.holds (by omega) (by omega) hcall)

end Reference

namespace Expr

variable {fold : Folding}

mutual

/-- The code of an expression is what stands between its addresses. -/
theorem ValueCode.inMemory {expr : Expr} {value : Value} {a b : Nat}
    (hsame : im.SameOn fetch a b) :
    expr.ValueCode im fold value a b → expr.ValueCode (im.inMemory fetch) fold value a b
  | .constant hfold => .constant hfold
  | .unary hoperand hop => by
    have hle := hoperand.le
    exact .unary (hoperand.inMemory (hsame.narrow (by omega) (by omega)))
      (hsame.holds (by omega) (by omega) hop)
  | .binary hfamily hleft hright hop => by
    have hle := hleft.le
    have hle' := hright.le
    exact .binary hfamily (hleft.inMemory (hsame.narrow (by omega) (by omega)))
      (hright.inMemory (hsame.narrow (by omega) (by omega))) (hsame.holds (by omega) (by omega) hop)
  | .leftDecides hfamily hfold => .leftDecides hfamily hfold
  | .rightRemains hfamily hfold hword hright =>
    .rightRemains hfamily hfold hword (hright.inMemory hsame)
  | .rightDecides hfamily hleft hfold hpop => by
    have hle := hleft.le
    exact .rightDecides hfamily (hleft.inMemory (hsame.narrow (by omega) (by omega))) hfold
      (hsame.holds (by omega) (by omega) hpop)
  | .leftRemains hfamily hleft hfold hword =>
    .leftRemains hfamily (hleft.inMemory hsame) hfold hword
  | .logical hfamily hleft hshort hright hdone hdecisive => by
    have hle := hleft.le
    have hle' := hright.le
    exact .logical hfamily (hleft.inMemory (hsame.narrow (by omega) (by omega)))
      (hsame.holds (by omega) (by omega) hshort)
      (hright.inMemory (hsame.narrow (by omega) (by omega)))
      (hsame.holds (by omega) (by omega) hdone) (hsame.holds (by omega) (by omega) hdecisive)
  | .choiceKnown hcond hchosen =>
    .choiceKnown (hcond.inMemory (hsame.narrow (Nat.le_refl _) hchosen.le)) (hchosen.inMemory hsame)
  | .choice hcond hTrue hdone hFalse => by
    have hle := hcond.le
    have hle' := hTrue.le
    have hle'' := hFalse.le
    exact .choice (hcond.inMemory (hsame.narrow (by omega) (by omega)))
      (hTrue.inMemory (hsame.narrow (by omega) (by omega))) (hsame.holds (by omega) (by omega) hdone)
      (hFalse.inMemory (hsame.narrow (by omega) (by omega)))
  | .ref htarget => .ref (htarget.inMemory hsame)
  | .index htarget hsubscript hload => by
    have hle := htarget.le
    have hle' := hsubscript.le
    exact .index (htarget.inMemory (hsame.narrow (by omega) (by omega)))
      (hsubscript.inMemory (hsame.narrow (by omega) (by omega)))
      (hsame.holds (by omega) (by omega) hload)
  | .call hargs hinvoke =>
    .call (hargs.inMemory (hsame.narrow (Nat.le_refl _) hinvoke.le))
      (hinvoke.inMemory (hsame.narrow hargs.le (Nat.le_refl _)))
  | .newObject hbound hslot hheader hsize hnew =>
    .newObject hbound hslot (hsame.holds (by omega) (by omega) hheader)
      (hsame.holds (by omega) (by omega) hsize) (hsame.holds (by omega) (by omega) hnew)
  | .newArray hsize hnew => by
    have hle := hsize.le
    exact .newArray (hsize.inMemory (hsame.narrow (by omega) (by omega)))
      (hsame.holds (by omega) (by omega) hnew)

theorem PushCode.inMemory {expr : Expr} {a b : Nat} (hsame : im.SameOn fetch a b) :
    expr.PushCode im fold a b → expr.PushCode (im.inMemory fetch) fold a b
  | .known hvalue hliteral => by
    have hle := hvalue.le
    exact .known (hvalue.inMemory (hsame.narrow (by omega) (by omega)))
      (hsame.holds (by omega) (by omega) hliteral)
  | .onStack hvalue => .onStack (hvalue.inMemory hsame)

/-- The code of a condition is found in any memory that holds the same words there. Where it jumps
    to does not matter. -/
theorem CondCode.inMemory {expr : Expr} {when : Bool} {outcome : Option Bool} {a b t : Nat}
    (hsame : im.SameOn fetch a b) :
    expr.CondCode im fold when outcome a b t → expr.CondCode (im.inMemory fetch) fold when outcome a b t
  | .constant hfold => .constant hfold
  | .not hoperand => .not (hoperand.inMemory hsame)
  | .either hfamily hleft hright =>
    .either hfamily (hleft.inMemory (hsame.narrow (Nat.le_refl _) hright.le))
      (hright.inMemory (hsame.narrow hleft.le (Nat.le_refl _)))
  | .both hfamily hleft hright =>
    .both hfamily (hleft.inMemory (hsame.narrow (Nat.le_refl _) hright.le))
      (hright.inMemory (hsame.narrow hleft.le (Nat.le_refl _)))
  | .test hvalue hjump => by
    have hle := hvalue.le
    exact .test (hvalue.inMemory (hsame.narrow (by omega) (by omega)))
      (hsame.holds (by omega) (by omega) hjump)

theorem JumpCode.inMemory {expr : Expr} {when : Bool} {a b t : Nat} (hsame : im.SameOn fetch a b) :
    expr.JumpCode im fold when a b t → expr.JumpCode (im.inMemory fetch) fold when a b t
  | .always hcond hjump =>
    .always (hcond.inMemory (hsame.narrow (by omega) (by omega)))
      (hsame.holds (by omega) (by omega) hjump)
  | .never hcond => .never (hcond.inMemory hsame)
  | .test hcond => .test (hcond.inMemory hsame)

theorem ArgsCode.inMemory {args : List Expr} {a b : Nat} (hsame : im.SameOn fetch a b) :
    Expr.ArgsCode im fold args a b → Expr.ArgsCode (im.inMemory fetch) fold args a b
  | .nil => .nil
  | .cons harg hrest =>
    .cons (harg.inMemory (hsame.narrow (Nat.le_refl _) hrest.le))
      (hrest.inMemory (hsame.narrow harg.le (Nat.le_refl _)))

end

end Expr

end SmallJava
