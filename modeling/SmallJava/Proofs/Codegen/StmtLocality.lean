import SmallJava.Proofs.Codegen.Locality

namespace SmallJava

variable {im : Image} {fetch : Address → Option Instruction} {fold : Folding} {a b t : Nat}

/-- The code that prepares a target is found in any memory that holds the same words there. -/
theorem Reference.DestinationCode.inMemory {target : Reference} {destination : Destination}
    (h : target.DestinationCode im destination a b) (hsame : im.SameOn fetch a b) :
    target.DestinationCode (im.inMemory fetch) destination a b := by
  cases h with
  | «variable» hbound hbase hslot => exact .variable hbound hbase hslot
  | staticField hbound hkind hstatic hslot => exact .staticField hbound hkind hstatic hslot
  | ownField hbound hkind hstatic hthis hslot => exact .ownField hbound hkind hstatic hthis hslot
  | field hbound hkind hstatic hthis hslot howner hoffset =>
    have hle := howner.le
    exact .field hbound hkind hstatic hthis hslot
      (howner.inMemory (hsame.narrow (by omega) (by omega)))
      (hsame.holds (by omega) (by omega) hoffset)

theorem PopCode.inMemory {count : Int} (h : PopCode im count a b) (hsame : im.SameOn fetch a b) :
    PopCode (im.inMemory fetch) count a b := by
  cases h with
  | some hcount hpop => exact .some hcount (hsame.holds (by omega) (by omega) hpop)
  | none hcount => exact .none hcount

theorem StoreCode.inMemory {site : Site} {target : Reference} {value : Value}
    {known known' : Dict SymbolId Word} {destination : Destination}
    (h : StoreCode im site target value known destination a known')
    (hsame : im.SameOn fetch a (a + 1)) :
    StoreCode (im.inMemory fetch) site target value known destination a known' := by
  cases h with
  | «variable» hstore => exact .variable (hsame.holds (by omega) (by omega) hstore)
  | field hbase hstore => exact .field hbase (hsame.holds (by omega) (by omega) hstore)
  | otherField hstore => exact .otherField (hsame.holds (by omega) (by omega) hstore)

theorem TestCode.inMemory {cond : Option Expr} {when : Bool} {outcome : Option Bool}
    (h : TestCode im fold cond when outcome a b t) (hsame : im.SameOn fetch a b) :
    TestCode (im.inMemory fetch) fold cond when outcome a b t := by
  cases h with
  | none => exact .none
  | some hcond => exact .some (hcond.inMemory hsame)

theorem BackCode.inMemory {cond : Option Expr} (h : BackCode im fold cond a b t)
    (hsame : im.SameOn fetch a b) : BackCode (im.inMemory fetch) fold cond a b t := by
  cases h with
  | always htest hjump =>
    exact .always (htest.inMemory (hsame.narrow (by omega) (by omega)))
      (hsame.holds (by omega) (by omega) hjump)
  | never htest => exact .never (htest.inMemory hsame)
  | test htest => exact .test (htest.inMemory hsame)

namespace Stmt

mutual

/-- The code of a statement is what stands between its addresses. -/
theorem Code.inMemory {site : Site} {stmt : Stmt} {φ φ' : Tracked} {a b : Nat}
    (hsame : im.SameOn fetch a b) :
    stmt.Code im site φ a b φ' → stmt.Code (im.inMemory fetch) site φ a b φ'
  | .block hstmts hpop =>
    .block (hstmts.inMemory (hsame.narrow (Nat.le_refl _) hpop.le))
      (hpop.inMemory (hsame.narrow hstmts.le (Nat.le_refl _)))
  | .varDeclKnown hbound hslot hinit hliteral => by
    have hle := hinit.le
    exact .varDeclKnown hbound hslot (hinit.inMemory (hsame.narrow (by omega) (by omega)))
      (hsame.holds (by omega) (by omega) hliteral)
  | .varDecl hbound hslot hinit => .varDecl hbound hslot (hinit.inMemory hsame)
  | .assignKnown htarget hvalue hliteral hstore => by
    have hle := htarget.le
    have hle' := hvalue.le
    exact .assignKnown (htarget.inMemory (hsame.narrow (by omega) (by omega)))
      (hvalue.inMemory (hsame.narrow (by omega) (by omega)))
      (hsame.holds (by omega) (by omega) hliteral)
      (hstore.inMemory (hsame.narrow (by omega) (by omega)))
  | .assign htarget hvalue hstore => by
    have hle := htarget.le
    have hle' := hvalue.le
    exact .assign (htarget.inMemory (hsame.narrow (by omega) (by omega)))
      (hvalue.inMemory (hsame.narrow (by omega) (by omega)))
      (hstore.inMemory (hsame.narrow (by omega) (by omega)))
  | .indexAssign htarget hsubscript hvalue hstore => by
    have hle := htarget.le
    have hle' := hsubscript.le
    have hle'' := hvalue.le
    exact .indexAssign (htarget.inMemory (hsame.narrow (by omega) (by omega)))
      (hsubscript.inMemory (hsame.narrow (by omega) (by omega)))
      (hvalue.inMemory (hsame.narrow (by omega) (by omega)))
      (hsame.holds (by omega) (by omega) hstore)
  | .call hargs hinvoke hpop => by
    have hle := hargs.le
    have hle' := hinvoke.le
    have hle'' := hpop.le
    exact .call (hargs.inMemory (hsame.narrow (by omega) (by omega)))
      (hinvoke.inMemory (hsame.narrow (by omega) (by omega)))
      (hpop.inMemory (hsame.narrow (by omega) (by omega)))
  | .returnValue hvalue hreturn => by
    have hle := hvalue.le
    exact .returnValue (hvalue.inMemory (hsame.narrow (by omega) (by omega)))
      (hsame.holds (by omega) (by omega) hreturn)
  | .return hreturn => .return (hsame.holds (by omega) (by omega) hreturn)
  | .ifTrue hcond hTrue =>
    .ifTrue (hcond.inMemory (hsame.narrow (Nat.le_refl _) hTrue.le)) (hTrue.inMemory hsame)
  | .ifFalse hcond hFalse =>
    .ifFalse (hcond.inMemory (hsame.narrow (Nat.le_refl _) hFalse.le)) (hFalse.inMemory hsame)
  | .ifOnly hcond hTrue =>
    .ifOnly (hcond.inMemory (hsame.narrow (Nat.le_refl _) hTrue.le))
      (hTrue.inMemory (hsame.narrow hcond.le (Nat.le_refl _)))
  | .ifElse hcond hTrue hdone hFalse => by
    have hle := hcond.le
    have hle' := hTrue.le
    have hle'' := hFalse.le
    exact .ifElse (hcond.inMemory (hsame.narrow (by omega) (by omega)))
      (hTrue.inMemory (hsame.narrow (by omega) (by omega))) (hsame.holds (by omega) (by omega) hdone)
      (hFalse.inMemory (hsame.narrow (by omega) (by omega)))
  | .while hloop => .while (hloop.inMemory hsame)
  | .for hinit hloop hpop => by
    have hle := hinit.le
    have hle' := hloop.le
    have hle'' := hpop.le
    exact .for (hinit.inMemory (hsame.narrow (by omega) (by omega)))
      (hloop.inMemory (hsame.narrow (by omega) (by omega)))
      (hpop.inMemory (hsame.narrow (by omega) (by omega)))

/-- The code of a loop is found in any memory that holds the same words there. -/
theorem LoopCode.inMemory {site : Site} {cond : Option Expr} {body : Stmt} {update : Option Stmt}
    {φ φ' : Tracked} {a b : Nat} (hsame : im.SameOn fetch a b) :
    LoopCode im site cond body update φ a b φ' →
      LoopCode (im.inMemory fetch) site cond body update φ a b φ'
  | .skip htest => .skip (htest.inMemory hsame)
  | .forever htest hbody hupdate hback => by
    have hle := hbody.le
    have hle' := hupdate.le
    have hle'' := hback.le
    exact .forever (htest.inMemory (hsame.narrow (by omega) (by omega)))
      (hbody.inMemory (hsame.narrow (by omega) (by omega)))
      (hupdate.inMemory (hsame.narrow (by omega) (by omega)))
      (hback.inMemory (hsame.narrow (by omega) (by omega)))
  | .test htest hbody hupdate hback => by
    have hle := htest.le
    have hle' := hbody.le
    have hle'' := hupdate.le
    have hle''' := hback.le
    exact .test (htest.inMemory (hsame.narrow (by omega) (by omega)))
      (hbody.inMemory (hsame.narrow (by omega) (by omega)))
      (hupdate.inMemory (hsame.narrow (by omega) (by omega)))
      (hback.inMemory (hsame.narrow (by omega) (by omega)))

theorem OptionCode.inMemory {site : Site} {stmt : Option Stmt} {φ φ' : Tracked} {a b : Nat}
    (hsame : im.SameOn fetch a b) :
    OptionCode im site stmt φ a b φ' → OptionCode (im.inMemory fetch) site stmt φ a b φ'
  | .none => .none
  | .some hstmt => .some (hstmt.inMemory hsame)

theorem ListCode.inMemory {site : Site} {stmts : List Stmt} {φ φ' : Tracked} {a b : Nat}
    (hsame : im.SameOn fetch a b) :
    ListCode im site stmts φ a b φ' → ListCode (im.inMemory fetch) site stmts φ a b φ'
  | .nil => .nil
  | .cons hstmt hrest =>
    .cons (hstmt.inMemory (hsame.narrow (Nat.le_refl _) hrest.le))
      (hrest.inMemory (hsame.narrow hstmt.le (Nat.le_refl _)))

end

end Stmt

end SmallJava
