import SmallJava.Proofs.Codegen.ReferenceEmission

namespace SmallJava

namespace Cond

/-- The open jumps of a condition. -/
def labels : Cond → List Label
  | known _ => []
  | jumps labels => labels

def outcome? : Cond → Option Bool
  | known outcome => some outcome
  | jumps _ => none

@[simp]
theorem labels_negate (cond : Cond) : cond.negate.labels = cond.labels := by
  cases cond <;> rfl

@[simp]
theorem outcome?_negate (cond : Cond) : cond.negate.outcome? = cond.outcome?.map (!·) := by
  cases cond <;> rfl

end Cond

namespace Expr

variable {im : Image} {fold : Folding}

/-- A condition with a known outcome has no code. -/
theorem CondCode.eq_of_known {expr : Expr} {when : Bool} {outcome : Option Bool} {a b t : Nat}
    (hcond : CondCode im fold expr when outcome a b t) (hknown : outcome ≠ none) : a = b := by
  match hcond with
  | .constant _ => rfl
  | .not hoperand => exact hoperand.eq_of_known fun hnone => hknown (by rw [hnone]; rfl)
  | .either .. => exact absurd rfl hknown
  | .both .. => exact absurd rfl hknown
  | .test .. => exact absurd rfl hknown

/-- Apart from logical operators, a value is known only where it needs no code. -/
theorem ValueCode.constant_of_known {expr : Expr} {word : Word} {a b : Nat}
    (hvalue : ValueCode im fold expr (.known word) a b)
    (hplain : ∀ annot op left right, expr = .binary annot op left right → op.isLogical = false) :
    a = b ∧ fold expr = some word := by
  cases hvalue with
  | constant hfold => exact ⟨rfl, hfold⟩
  | leftDecides hfamily => simp [hplain _ _ _ _ rfl] at hfamily
  | rightRemains hfamily => simp [hplain _ _ _ _ rfl] at hfamily
  | rightDecides hfamily => simp [hplain _ _ _ _ rfl] at hfamily

end Expr

namespace Gen

/-- The action emits the code of the expression as a value. -/
def YieldsValue (site : Site) (expr : Expr) (code : Gen Value) : Prop :=
  ∀ ⦃s s' : GenState⦄ ⦃value : Value⦄, code s = .ok value s' →
    Quiet s s' ∧
      Emits s s' [] fun im _ => expr.ValueCode im (site.fold s.known) value s.here s'.here

/-- The action emits code that pushes the value of the expression. -/
def Pushes (site : Site) (expr : Expr) (code : Gen Unit) : Prop :=
  ∀ ⦃s s' : GenState⦄, code s = .ok () s' →
    Quiet s s' ∧ Emits s s' [] fun im _ => expr.PushCode im (site.fold s.known) s.here s'.here

/-- The action emits the code of the expression as a condition. The jumps it leaves
open are to get one target. -/
def YieldsCond (site : Site) (expr : Expr) (when : Bool) (code : Gen Cond) : Prop :=
  ∀ ⦃s s' : GenState⦄ ⦃cond : Cond⦄, code s = .ok cond s' →
    Quiet s s' ∧ Emits s s' cond.labels fun im target =>
      ∀ t, (∀ label ∈ cond.labels, target label = t) →
        expr.CondCode im (site.fold s.known) when cond.outcome? s.here s'.here t

/-- The action emits code that jumps on the outcome `when` and runs on otherwise. -/
def YieldsJumps (site : Site) (expr : Expr) (when : Bool) (code : Gen (List Label)) : Prop :=
  ∀ ⦃s s' : GenState⦄ ⦃labels : List Label⦄, code s = .ok labels s' →
    Quiet s s' ∧ Emits s s' labels fun im target =>
      ∀ t, (∀ label ∈ labels, target label = t) →
        expr.JumpCode im (site.fold s.known) when s.here s'.here t

/-- The action emits code that pushes the arguments in order. -/
def PushesAll (site : Site) (args : List Expr) (code : Gen Unit) : Prop :=
  ∀ ⦃s s' : GenState⦄, code s = .ok () s' →
    Quiet s s' ∧
      Emits s s' [] fun im _ => Expr.ArgsCode im (site.fold s.known) args s.here s'.here

variable {site : Site}

/-- Code for a value becomes code that leaves it on the stack: a known one is loaded. -/
theorem YieldsValue.pushed {expr : Expr} {code : Gen Value} (hcode : YieldsValue site expr code) :
    Pushes site expr (pushed code) := by
  intro s s' hpush
  obtain ⟨value, s₁, hvalue, hpush⟩ := bind_eq_ok_iff.1 hpush
  obtain ⟨hquiet₁, hvalue⟩ := hcode hvalue
  cases value with
  | known word =>
    obtain ⟨hnext, hquiet₂, hliteral⟩ := Emits.one (.literal word.toInt) (emit_eq_ok_iff.1 hpush)
    refine ⟨hquiet₁.trans hquiet₂, (hvalue.trans hliteral).weaken fun im _ hshape => ?_⟩
    rw [hnext]
    exact .known hshape.1 hshape.2
  | onStack =>
    obtain ⟨-, rfl⟩ := pure_eq_ok_iff.1 hpush
    exact ⟨hquiet₁, hvalue.weaken fun im _ hvalue => .onStack hvalue⟩

/-- For an expression whose value is known no code is needed. -/
theorem YieldsValue.unlessKnown {expr : Expr} {code : Gen Value}
    (hcode : YieldsValue site expr code) : YieldsValue site expr (unlessKnown site expr code) := by
  intro s s' value hvalue
  obtain ⟨found, _, hconstant, hvalue⟩ := bind_eq_ok_iff.1 hvalue
  obtain ⟨hfold, rfl⟩ := constantAt_eq_ok_iff.1 hconstant
  cases found with
  | none => exact hcode hvalue
  | some word =>
    obtain ⟨rfl, rfl⟩ := pure_eq_ok_iff.1 hvalue
    exact ⟨Quiet.refl s, (Emits.look s).weaken fun im _ _ => .constant hfold⟩

/-- The value of a literal is known everywhere. -/
theorem yieldsValue_literal {expr : Expr} {word : Word}
    (hliteral : ∀ known, site.fold known expr = some word) :
    YieldsValue site expr (pure (.known word)) := by
  intro s s' value hvalue
  obtain ⟨rfl, rfl⟩ := pure_eq_ok_iff.1 hvalue
  exact ⟨Quiet.refl s, (Emits.look s).weaken fun im _ _ => .constant (hliteral s.known)⟩

/-- The operand comes first, then the operator. -/
theorem yieldsValue_unary {annot : Annot} {op : UnaryOp} {operand : Expr} {code : Gen Unit}
    (hoperand : Pushes site operand code) :
    YieldsValue site (.unary annot op operand) (unary op code) := by
  intro s s' value hvalue
  obtain ⟨_, s₁, hcode, hvalue⟩ := bind_eq_ok_iff.1 hvalue
  obtain ⟨hquiet₁, hoperand⟩ := hoperand hcode
  obtain ⟨_, s₂, hop, hvalue⟩ := bind_eq_ok_iff.1 hvalue
  obtain ⟨hnext, hquiet₂, hop⟩ := Emits.one (.primitive op.primitive) (emit_eq_ok_iff.1 hop)
  obtain ⟨rfl, rfl⟩ := pure_eq_ok_iff.1 hvalue
  refine ⟨hquiet₁.trans hquiet₂, (hoperand.trans hop).weaken fun im _ hshape => ?_⟩
  rw [hnext]
  exact .unary hshape.1 hshape.2

/-- The operands come from left to right, then the operator. -/
theorem yieldsValue_binary {annot : Annot} {op : BinaryOp} {left right : Expr}
    {codeLeft codeRight : Gen Unit} (hfamily : op.isLogical = false)
    (hleft : Pushes site left codeLeft) (hright : Pushes site right codeRight) :
    YieldsValue site (.binary annot op left right) (binary op codeLeft codeRight) := by
  intro s s' value hvalue
  obtain ⟨_, s₁, hcode, hvalue⟩ := bind_eq_ok_iff.1 hvalue
  obtain ⟨hquiet₁, hleft⟩ := hleft hcode
  obtain ⟨_, s₂, hcode, hvalue⟩ := bind_eq_ok_iff.1 hvalue
  obtain ⟨hquiet₂, hright⟩ := hright hcode
  obtain ⟨_, s₃, hop, hvalue⟩ := bind_eq_ok_iff.1 hvalue
  obtain ⟨hnext, hquiet₃, hop⟩ := Emits.one (.primitive op.primitive) (emit_eq_ok_iff.1 hop)
  obtain ⟨rfl, rfl⟩ := pure_eq_ok_iff.1 hvalue
  refine ⟨hquiet₁.trans (hquiet₂.trans hquiet₃),
    (hleft.trans (hright.trans hop)).weaken fun im _ hshape => ?_⟩
  obtain ⟨hleft, hright, hop⟩ := hshape
  rw [hquiet₁.known] at hright
  rw [hnext]
  exact .binary hfamily hleft hright hop

/-- Both alternatives stay if the condition is open, only the chosen one if it is known. -/
theorem yieldsValue_ternary {annot : Annot} {cond onTrue onFalse : Expr}
    {codeCond : Bool → Gen Cond} {codeTrue codeFalse : Gen Unit}
    (hcond : YieldsCond site cond false (codeCond false)) (hTrue : Pushes site onTrue codeTrue)
    (hFalse : Pushes site onFalse codeFalse) :
    YieldsValue site (.ternary annot cond onTrue onFalse)
      (ternary codeCond codeTrue codeFalse) := by
  intro s s' value hvalue
  obtain ⟨outcome, s₁, hcode, hvalue⟩ := bind_eq_ok_iff.1 hvalue
  obtain ⟨hquiet₁, hcond⟩ := hcond hcode
  obtain ⟨_, s₂, hchoose, hvalue⟩ := bind_eq_ok_iff.1 hvalue
  obtain ⟨rfl, rfl⟩ := pure_eq_ok_iff.1 hvalue
  cases outcome with
  | known outcome =>
    have hchosen : Pushes site (if outcome then onTrue else onFalse)
        (if outcome then codeTrue else codeFalse) := by
      cases outcome
      · exact hFalse
      · exact hTrue
    have hcode : (if outcome then codeTrue else codeFalse) s₁ = .ok () s₂ := by
      cases outcome
      · exact hchoose
      · exact hchoose
    obtain ⟨hquiet₂, hchosen⟩ := hchosen hcode
    refine ⟨hquiet₁.trans hquiet₂, (hcond.trans hchosen).weaken fun im target hshape => ?_⟩
    obtain ⟨hcond, hchosen⟩ := hshape
    have hcond := hcond 0 (by simp [Cond.labels])
    have hsame := hcond.eq_of_known (by simp [Cond.outcome?])
    rw [hquiet₁.known, ← hsame] at hchosen
    rw [← hsame] at hcond
    exact .choiceKnown hcond hchosen
  | jumps toElse =>
    obtain ⟨_, s₃, hcode, hchoose⟩ := bind_eq_ok_iff.1 hchoose
    obtain ⟨hquiet₂, hTrue⟩ := hTrue hcode
    obtain ⟨done, s₄, hjump, hchoose⟩ := bind_eq_ok_iff.1 hchoose
    obtain ⟨hnext, hquiet₃, hjump⟩ := Emits.jump hjump
    obtain ⟨_, s₅, hpatch, hchoose⟩ := bind_eq_ok_iff.1 hchoose
    obtain ⟨hsame, hquiet₄, hfirst⟩ := hcond.patched (hTrue.trans hjump) hpatch
    obtain ⟨_, s₆, hcode, hpatch⟩ := bind_eq_ok_iff.1 hchoose
    obtain ⟨hquiet₅, hFalse⟩ := hFalse hcode
    have hpatch : patchAll [done] s₆ = .ok () s₂ := hpatch
    obtain ⟨hend, hquiet₆, hall⟩ := (hfirst.trans hFalse).closed hpatch
    have hquiet := hquiet₁.trans (hquiet₂.trans (hquiet₃.trans hquiet₄))
    refine ⟨hquiet.trans (hquiet₅.trans hquiet₆), hall.weaken fun im _ hshape => ?_⟩
    obtain ⟨target, hdone, ⟨target', helse, hopen, hcond, hTrue, hjump⟩, hFalse⟩ := hshape
    rw [hopen done (by simp), hdone done (by simp)] at hjump
    rw [hquiet₁.known] at hTrue
    rw [hquiet.known] at hFalse
    rw [hsame, hnext] at helse hFalse
    rw [hend] at hjump ⊢
    exact .choice (hcond _ helse) hTrue hjump hFalse

/-- A known left operand decides or leaves the right one; a known right operand decides
or leaves the left one; otherwise the right one is skipped by a jump. -/
theorem yieldsValue_logical {annot : Annot} {op : BinaryOp} {left right : Expr}
    {codeLeft codeRight : Gen Value} (hfamily : op.isLogical = true)
    (hleft : YieldsValue site left codeLeft) (hright : YieldsValue site right codeRight) :
    YieldsValue site (.binary annot op left right)
      (logical op (constantAt site left) (constantAt site right) codeLeft codeRight) := by
  intro s s' value hvalue
  obtain ⟨leftKnown, _, hconstant, hvalue⟩ := bind_eq_ok_iff.1 hvalue
  obtain ⟨hfold, rfl⟩ := constantAt_eq_ok_iff.1 hconstant
  cases leftKnown with
  | some word =>
    by_cases hword : word = .ofBool op.decisive
    · replace hvalue : (if word = .ofBool op.decisive then pure (.known (.ofBool op.decisive))
        else codeRight : Gen Value) s = .ok value s' := hvalue
      rw [if_pos hword] at hvalue
      obtain ⟨rfl, rfl⟩ := pure_eq_ok_iff.1 hvalue
      refine ⟨Quiet.refl s, (Emits.look s).weaken fun im _ _ => .leftDecides hfamily ?_⟩
      rw [hfold, hword]
    · replace hvalue : (if word = .ofBool op.decisive then pure (.known (.ofBool op.decisive))
        else codeRight : Gen Value) s = .ok value s' := hvalue
      rw [if_neg hword] at hvalue
      obtain ⟨hquiet, hright⟩ := hright hvalue
      exact ⟨hquiet, hright.weaken fun im _ hright => .rightRemains hfamily hfold hword hright⟩
  | none =>
    obtain ⟨_, s₁, hcode, hvalue⟩ := bind_eq_ok_iff.1 hvalue
    obtain ⟨hquiet₁, hleft⟩ := hleft.pushed hcode
    obtain ⟨rightKnown, _, hconstant, hvalue⟩ := bind_eq_ok_iff.1 hvalue
    obtain ⟨hfold', rfl⟩ := constantAt_eq_ok_iff.1 hconstant
    rw [hquiet₁.known] at hfold'
    cases rightKnown with
    | some word =>
      by_cases hword : word = .ofBool op.decisive
      · replace hvalue : (if word = .ofBool op.decisive then do
            emit (·.pop 1)
            pure (.known (.ofBool op.decisive))
          else pure .onStack : Gen Value) s₁ = .ok value s' := hvalue
        rw [if_pos hword] at hvalue
        obtain ⟨_, s₂, hpop, hvalue⟩ := bind_eq_ok_iff.1 hvalue
        obtain ⟨hnext, hquiet₂, hpop⟩ := Emits.one (.pop 1) (emit_eq_ok_iff.1 hpop)
        obtain ⟨rfl, rfl⟩ := pure_eq_ok_iff.1 hvalue
        refine ⟨hquiet₁.trans hquiet₂, (hleft.trans hpop).weaken fun im _ hshape => ?_⟩
        rw [hnext]
        exact .rightDecides hfamily hshape.1 (by rw [hfold', hword]) hshape.2
      · replace hvalue : (if word = .ofBool op.decisive then do
            emit (·.pop 1)
            pure (.known (.ofBool op.decisive))
          else pure .onStack : Gen Value) s₁ = .ok value s' := hvalue
        rw [if_neg hword] at hvalue
        obtain ⟨rfl, rfl⟩ := pure_eq_ok_iff.1 hvalue
        exact ⟨hquiet₁, hleft.weaken fun im _ hleft => .leftRemains hfamily hleft hfold' hword⟩
    | none =>
      obtain ⟨short, s₂, hjump, hvalue⟩ := bind_eq_ok_iff.1 hvalue
      obtain ⟨hnext₂, hquiet₂, hshort⟩ := Emits.jumpIf _ hjump
      obtain ⟨_, s₃, hcode, hvalue⟩ := bind_eq_ok_iff.1 hvalue
      obtain ⟨hquiet₃, hright⟩ := hright.pushed hcode
      obtain ⟨done, s₄, hjump, hvalue⟩ := bind_eq_ok_iff.1 hvalue
      obtain ⟨hnext₄, hquiet₄, hdone⟩ := Emits.jump hjump
      obtain ⟨_, s₅, hpatch, hvalue⟩ := bind_eq_ok_iff.1 hvalue
      have hpatch : patchAll [short] s₄ = .ok () s₅ := hpatch
      obtain ⟨hsame, hquiet₅, hfirst⟩ := (hleft.trans hshort).patched (hright.trans hdone) hpatch
      obtain ⟨_, s₆, hliteral, hvalue⟩ := bind_eq_ok_iff.1 hvalue
      obtain ⟨hnext₆, hquiet₆, hliteral⟩ := Emits.one (.literal _) (emit_eq_ok_iff.1 hliteral)
      obtain ⟨_, s₇, hpatch, hvalue⟩ := bind_eq_ok_iff.1 hvalue
      have hpatch : patchAll [done] s₆ = .ok () s₇ := hpatch
      obtain ⟨hend, hquiet₇, hall⟩ := (hfirst.trans hliteral).closed hpatch
      obtain ⟨rfl, rfl⟩ := pure_eq_ok_iff.1 hvalue
      refine ⟨hquiet₁.trans (hquiet₂.trans (hquiet₃.trans (hquiet₄.trans
        (hquiet₅.trans (hquiet₆.trans hquiet₇))))), hall.weaken fun im _ hshape => ?_⟩
      obtain ⟨target, hout, ⟨target', hin, hopen, ⟨hleft, hshort⟩, hright, hdone⟩, hliteral⟩ := hshape
      rw [hin short (by simp)] at hshort
      rw [hopen done (by simp), hout done (by simp)] at hdone
      rw [hquiet₂.known, hquiet₁.known] at hright
      rw [hend, hnext₆, hsame, hnext₄] at hdone ⊢
      rw [hsame, hnext₄] at hshort hliteral
      rw [hnext₂] at hright
      exact .logical hfamily hleft hshort hright hdone hliteral

theorem yieldsValue_ref {annot : Annot} {target : Reference} :
    YieldsValue site (.ref annot target) (do target.push; pure .onStack) := by
  intro s s' value hvalue
  obtain ⟨_, s₁, hpush, hvalue⟩ := bind_eq_ok_iff.1 hvalue
  obtain ⟨hquiet, htarget⟩ := target.push_emits hpush
  obtain ⟨rfl, rfl⟩ := pure_eq_ok_iff.1 hvalue
  exact ⟨hquiet, htarget.weaken fun im _ htarget => .ref htarget⟩

/-- The array comes first, then the index, then the load. -/
theorem yieldsValue_index {annot : Annot} {target : Reference} {subscript : Expr} {code : Gen Unit}
    (hsubscript : Pushes site subscript code) :
    YieldsValue site (.index annot target subscript) (element target code) := by
  intro s s' value hvalue
  obtain ⟨_, s₁, hpush, hvalue⟩ := bind_eq_ok_iff.1 hvalue
  obtain ⟨hquiet₁, htarget⟩ := target.push_emits hpush
  obtain ⟨_, s₂, hcode, hvalue⟩ := bind_eq_ok_iff.1 hvalue
  obtain ⟨hquiet₂, hsubscript⟩ := hsubscript hcode
  obtain ⟨_, s₃, hload, hvalue⟩ := bind_eq_ok_iff.1 hvalue
  obtain ⟨hnext, hquiet₃, hload⟩ := Emits.one (.primitive .arrayref) (emit_eq_ok_iff.1 hload)
  obtain ⟨rfl, rfl⟩ := pure_eq_ok_iff.1 hvalue
  refine ⟨hquiet₁.trans (hquiet₂.trans hquiet₃),
    (htarget.trans (hsubscript.trans hload)).weaken fun im _ hshape => ?_⟩
  obtain ⟨htarget, hsubscript, hload⟩ := hshape
  rw [hquiet₁.known] at hsubscript
  rw [hnext]
  exact .index htarget hsubscript hload

/-- A new object takes a header without a length and the number of its fields. -/
theorem yieldsValue_newObject {annot : Annot} {cls : Ident} :
    YieldsValue site (.newObject annot cls) (newObject cls) := by
  intro s s' value hvalue
  obtain ⟨x, _, hname, hvalue⟩ := bind_eq_ok_iff.1 hvalue
  obtain ⟨hbound, rfl⟩ := bound_eq_ok_iff.1 hname
  obtain ⟨size, _, hexpect, hvalue⟩ := bind_eq_ok_iff.1 hvalue
  obtain ⟨hslot, rfl⟩ := expectSlot_eq_ok_iff.1 hexpect
  obtain ⟨_, s₁, hheader, hvalue⟩ := bind_eq_ok_iff.1 hvalue
  obtain ⟨hnext₁, hquiet₁, hheader⟩ := Emits.one (.literal (-1)) (emit_eq_ok_iff.1 hheader)
  obtain ⟨_, s₂, hsize, hvalue⟩ := bind_eq_ok_iff.1 hvalue
  obtain ⟨hnext₂, hquiet₂, hsize⟩ := Emits.one (.literal size) (emit_eq_ok_iff.1 hsize)
  obtain ⟨_, s₃, hnew, hvalue⟩ := bind_eq_ok_iff.1 hvalue
  obtain ⟨hnext₃, hquiet₃, hnew⟩ := Emits.one (.primitive .newobj) (emit_eq_ok_iff.1 hnew)
  obtain ⟨rfl, rfl⟩ := pure_eq_ok_iff.1 hvalue
  refine ⟨hquiet₁.trans (hquiet₂.trans hquiet₃), ((Emits.look s).trans
    (hheader.trans (hsize.trans hnew))).weaken fun im _ hshape => ?_⟩
  obtain ⟨⟨-, hslots⟩, hheader, hsize, hnew⟩ := hshape
  rw [hnext₂] at hnext₃ hnew
  rw [hnext₁] at hnext₃ hsize hnew
  rw [hnext₃]
  exact .newObject hbound (hslots x size hslot) hheader hsize hnew

/-- A new array takes its size from the stack. -/
theorem yieldsValue_newArray {annot : Annot} {elem : TypeExpr} {size : Expr} {code : Gen Unit}
    (hsize : Pushes site size code) :
    YieldsValue site (.newArray annot elem size) (newArray code) := by
  intro s s' value hvalue
  obtain ⟨_, s₁, hcode, hvalue⟩ := bind_eq_ok_iff.1 hvalue
  obtain ⟨hquiet₁, hsize⟩ := hsize hcode
  obtain ⟨_, s₂, hnew, hvalue⟩ := bind_eq_ok_iff.1 hvalue
  obtain ⟨hnext, hquiet₂, hnew⟩ := Emits.one (.primitive .newarr) (emit_eq_ok_iff.1 hnew)
  obtain ⟨rfl, rfl⟩ := pure_eq_ok_iff.1 hvalue
  refine ⟨hquiet₁.trans hquiet₂, (hsize.trans hnew).weaken fun im _ hshape => ?_⟩
  rw [hnext]
  exact .newArray hshape.1 hshape.2

theorem pushesAll_nil : PushesAll site [] (pure ()) := by
  intro s s' hcode
  obtain ⟨-, rfl⟩ := pure_eq_ok_iff.1 hcode
  exact ⟨Quiet.refl s, (Emits.look s).weaken fun im _ _ => .nil⟩

/-- Arguments are pushed from left to right. -/
theorem Pushes.cons {arg : Expr} {rest : List Expr} {codeArg codeRest : Gen Unit}
    (harg : Pushes site arg codeArg) (hrest : PushesAll site rest codeRest) :
    PushesAll site (arg :: rest) (do codeArg; codeRest) := by
  intro s s' hcode
  obtain ⟨_, s₁, hcodeArg, hcodeRest⟩ := bind_eq_ok_iff.1 hcode
  obtain ⟨hquiet₁, harg⟩ := harg hcodeArg
  obtain ⟨hquiet₂, hrest⟩ := hrest hcodeRest
  refine ⟨hquiet₁.trans hquiet₂, (harg.trans hrest).weaken fun im _ hshape => ?_⟩
  obtain ⟨harg, hrest⟩ := hshape
  rw [hquiet₁.known] at hrest
  exact .cons harg hrest

/-- The code of a call: its arguments, then its object, then the call itself. -/
theorem call_emits {callee : Reference} {args : List Expr} {code : Gen Unit}
    (hargs : PushesAll site args code) {s s' : GenState} {method : SymbolId}
    (hcall : call callee code s = .ok method s') :
    Quiet s s' ∧ Emits s s' [] fun im _ => ∃ b : Nat,
      Expr.ArgsCode im (site.fold s.known) args s.here b ∧
        callee.InvokeCode im method b s'.here := by
  obtain ⟨_, s₁, hcode, hcall⟩ := bind_eq_ok_iff.1 hcall
  obtain ⟨hquiet₁, hargs⟩ := hargs hcode
  obtain ⟨x, _, hname, hcall⟩ := bind_eq_ok_iff.1 hcall
  obtain ⟨hbound, rfl⟩ := bound_eq_ok_iff.1 hname
  obtain ⟨_, _, htable, hcall⟩ := bind_eq_ok_iff.1 hcall
  obtain ⟨rfl, rfl⟩ := table_eq_ok_iff.1 htable
  cases hmethod : s₁.table.isMethod x with
  | false =>
    rw [if_neg (by simp [hmethod])] at hcall
    cases hcall
  | true =>
    rw [if_pos hmethod] at hcall
    obtain ⟨_, s₂, hinvoke, hcall⟩ := bind_eq_ok_iff.1 hcall
    obtain ⟨hquiet₂, hinvoke⟩ := callMethod_emits callee x hbound hmethod hinvoke
    obtain ⟨rfl, rfl⟩ := pure_eq_ok_iff.1 hcall
    exact ⟨hquiet₁.trans hquiet₂,
      (hargs.trans hinvoke).weaken fun im _ hshape => ⟨s₁.here, hshape⟩⟩

/-- A call in an expression leaves its result on the stack. -/
theorem yieldsValue_call {annot : Annot} {callee : Reference} {args : List Expr} {code : Gen Unit}
    (hargs : PushesAll site args code) :
    YieldsValue site (.call annot callee args)
      (do let _ ← call callee code; pure .onStack) := by
  intro s s' value hvalue
  obtain ⟨method, s₁, hcall, hvalue⟩ := bind_eq_ok_iff.1 hvalue
  obtain ⟨hquiet, hcall⟩ := call_emits hargs hcall
  obtain ⟨rfl, rfl⟩ := pure_eq_ok_iff.1 hvalue
  refine ⟨hquiet, hcall.weaken fun im _ hshape => ?_⟩
  obtain ⟨b, hargs, hinvoke⟩ := hshape
  exact .call hargs hinvoke

/-- A value that is no logical operator is tested by one jump. -/
theorem YieldsValue.jumpOn {expr : Expr} {when : Bool} {code : Gen Value}
    (hcode : YieldsValue site expr code)
    (hplain : ∀ annot op left right, expr = .binary annot op left right → op.isLogical = false) :
    YieldsCond site expr when (jumpOn when code) := by
  intro s s' cond hcond
  obtain ⟨value, s₁, hvalue, hcond⟩ := bind_eq_ok_iff.1 hcond
  obtain ⟨hquiet₁, hvalue⟩ := hcode hvalue
  cases value with
  | known word =>
    obtain ⟨rfl, rfl⟩ := pure_eq_ok_iff.1 hcond
    refine ⟨hquiet₁, hvalue.weaken fun im _ hvalue t _ => ?_⟩
    obtain ⟨hsame, hfold⟩ := hvalue.constant_of_known hplain
    rw [← hsame]
    exact .constant hfold
  | onStack =>
    obtain ⟨label, s₂, hjump, hcond⟩ := bind_eq_ok_iff.1 hcond
    obtain ⟨hnext, hquiet₂, hjump⟩ := Emits.jumpIf _ hjump
    obtain ⟨rfl, rfl⟩ := pure_eq_ok_iff.1 hcond
    refine ⟨hquiet₁.trans hquiet₂, (hvalue.trans hjump).weaken fun im target hshape t ht => ?_⟩
    obtain ⟨hvalue, hjump⟩ := hshape
    rw [ht label (by simp [Cond.labels])] at hjump
    rw [hnext]
    exact .test hvalue hjump

/-- Code of a condition becomes code that jumps on one outcome: a known outcome jumps always or
never. -/
theorem YieldsCond.jumpsOf {expr : Expr} {when : Bool} {code : Gen Cond}
    (hcode : YieldsCond site expr when code) :
    YieldsJumps site expr when (do jumpsOf when (← code)) := by
  intro s s' labels hjumps
  obtain ⟨cond, s₁, hcond, hjumps⟩ := bind_eq_ok_iff.1 hjumps
  obtain ⟨hquiet₁, hcond⟩ := hcode hcond
  cases cond with
  | known outcome =>
    replace hjumps : (if outcome = when then (do pure [← emitJump (·.jump)]) else pure [] :
      Gen (List Label)) s₁ = .ok labels s' := hjumps
    by_cases houtcome : outcome = when
    · subst houtcome
      rw [if_pos rfl] at hjumps
      obtain ⟨label, s₂, hjump, hjumps⟩ := bind_eq_ok_iff.1 hjumps
      obtain ⟨hnext, hquiet₂, hjump⟩ := Emits.jump hjump
      obtain ⟨rfl, rfl⟩ := pure_eq_ok_iff.1 hjumps
      refine ⟨hquiet₁.trans hquiet₂, (hcond.trans hjump).weaken fun im target hshape t ht => ?_⟩
      obtain ⟨hcond, hjump⟩ := hshape
      have hcond := hcond t (by simp [Cond.labels])
      have hsame := hcond.eq_of_known (by simp [Cond.outcome?])
      rw [← hsame] at hcond hjump hnext
      rw [ht label (by simp)] at hjump
      rw [hnext]
      exact .always hcond hjump
    · rw [if_neg houtcome] at hjumps
      obtain rfl : outcome = !when := by
        cases outcome <;> cases when <;> simp at houtcome ⊢
      obtain ⟨rfl, rfl⟩ := pure_eq_ok_iff.1 hjumps
      refine ⟨hquiet₁, hcond.weaken fun im target hcond t _ => ?_⟩
      have hcond := hcond t (by simp [Cond.labels])
      have hsame := hcond.eq_of_known (by simp [Cond.outcome?])
      rw [← hsame] at hcond ⊢
      exact .never hcond
  | jumps found =>
    obtain ⟨rfl, rfl⟩ := pure_eq_ok_iff.1 hjumps
    exact ⟨hquiet₁, hcond.weaken fun im target hcond t ht => .test (hcond t ht)⟩

theorem yieldsCond_constant {expr : Expr} {when : Bool} {word : Word}
    (hliteral : ∀ known, site.fold known expr = some word) :
    YieldsCond site expr when (pure (.known word.isTrue)) := by
  intro s s' cond hcond
  obtain ⟨rfl, rfl⟩ := pure_eq_ok_iff.1 hcond
  exact ⟨Quiet.refl s, (Emits.look s).weaken fun im _ _ t _ => .constant (hliteral s.known)⟩

/-- A condition whose value is known is decided without code. -/
theorem YieldsCond.unlessKnown {expr : Expr} {when : Bool} {code : Gen Cond}
    (hcode : YieldsCond site expr when code) :
    YieldsCond site expr when (do
      match ← constantAt site expr with
      | some word => pure (.known word.isTrue)
      | none => code) := by
  intro s s' cond hcond
  obtain ⟨found, _, hconstant, hcond⟩ := bind_eq_ok_iff.1 hcond
  obtain ⟨hfold, rfl⟩ := constantAt_eq_ok_iff.1 hconstant
  cases found with
  | none => exact hcode hcond
  | some word =>
    obtain ⟨rfl, rfl⟩ := pure_eq_ok_iff.1 hcond
    exact ⟨Quiet.refl s, (Emits.look s).weaken fun im _ _ t _ => .constant hfold⟩

/-- Negation exchanges the outcomes and needs no code of its own. -/
theorem YieldsCond.not {annot : Annot} {operand : Expr} {when : Bool} {code : Gen Cond}
    (hcode : YieldsCond site operand (!when) code) :
    YieldsCond site (.unary annot .not operand) when (Cond.negate <$> code) := by
  intro s s' cond hcond
  obtain ⟨found, hfound, rfl⟩ := map_eq_ok_iff.1 hcond
  obtain ⟨hquiet, hoperand⟩ := hcode hfound
  rw [Cond.labels_negate, Cond.outcome?_negate]
  exact ⟨hquiet, hoperand.weaken fun im _ hoperand t ht => .not (hoperand t ht)⟩

/-- A logical operator jumps from either operand, or from the second one only, the first
one skipping it. -/
theorem yieldsCond_chain {annot : Annot} {op : BinaryOp} {left right : Expr} {when : Bool}
    {codeLeft codeRight : Bool → Gen Cond} (hfamily : op.isLogical = true)
    (hleft : ∀ when, YieldsCond site left when (codeLeft when))
    (hright : ∀ when, YieldsCond site right when (codeRight when)) :
    YieldsCond site (.binary annot op left right) when (chain op codeLeft codeRight when) := by
  intro s s' cond hcond
  unfold chain at hcond
  by_cases hwhen : when = op.decisive
  · subst hwhen
    rw [if_pos rfl] at hcond
    have hleft := (hleft op.decisive).jumpsOf
    have hright := (hright op.decisive).jumpsOf
    obtain ⟨found, s₁, hfound, hcond⟩ := bind_eq_ok_iff.1 hcond
    obtain ⟨labels, s₂, hlabels, hcond⟩ := bind_eq_ok_iff.1 hcond
    obtain ⟨hquiet₁, hleft⟩ := hleft (bind_eq_ok_iff.2 ⟨found, s₁, hfound, hlabels⟩)
    obtain ⟨found', s₃, hfound', hcond⟩ := bind_eq_ok_iff.1 hcond
    obtain ⟨labels', s₄, hlabels', hcond⟩ := bind_eq_ok_iff.1 hcond
    obtain ⟨hquiet₂, hright⟩ := hright (bind_eq_ok_iff.2 ⟨found', s₃, hfound', hlabels'⟩)
    obtain ⟨rfl, rfl⟩ := pure_eq_ok_iff.1 hcond
    refine ⟨hquiet₁.trans hquiet₂, (hleft.trans hright).weaken fun im target hshape t ht => ?_⟩
    obtain ⟨hleft, hright⟩ := hshape
    rw [hquiet₁.known] at hright
    refine .either hfamily (hleft t fun label hmem => ht label ?_)
      (hright t fun label hmem => ht label ?_)
    · exact List.mem_append_left labels' hmem
    · exact List.mem_append_right labels hmem
  · obtain rfl : when = !op.decisive := by
      cases when <;> cases hdecisive : op.decisive <;> simp [hdecisive] at hwhen ⊢
    rw [if_neg hwhen] at hcond
    have hleft := (hleft op.decisive).jumpsOf
    have hright := (hright !op.decisive).jumpsOf
    obtain ⟨found, s₁, hfound, hcond⟩ := bind_eq_ok_iff.1 hcond
    obtain ⟨skip, s₂, hlabels, hcond⟩ := bind_eq_ok_iff.1 hcond
    obtain ⟨hquiet₁, hleft⟩ := hleft (bind_eq_ok_iff.2 ⟨found, s₁, hfound, hlabels⟩)
    obtain ⟨found', s₃, hfound', hcond⟩ := bind_eq_ok_iff.1 hcond
    obtain ⟨labels', s₄, hlabels', hcond⟩ := bind_eq_ok_iff.1 hcond
    obtain ⟨hquiet₂, hright⟩ := hright (bind_eq_ok_iff.2 ⟨found', s₃, hfound', hlabels'⟩)
    obtain ⟨_, s₅, hpatch, hcond⟩ := bind_eq_ok_iff.1 hcond
    obtain ⟨hsame, hquiet₃, hall⟩ := hleft.patched hright hpatch
    obtain ⟨rfl, rfl⟩ := pure_eq_ok_iff.1 hcond
    refine ⟨hquiet₁.trans (hquiet₂.trans hquiet₃), hall.weaken fun im target hshape t ht => ?_⟩
    obtain ⟨target', hskip, hopen, hleft, hright⟩ := hshape
    rw [hquiet₁.known] at hright
    rw [hsame] at hskip ⊢
    exact .both hfamily (hleft _ hskip)
      (hright t fun label hmem => (hopen label hmem).trans (ht label hmem))

end Gen

namespace Expr

open Gen

variable (site : Site)

mutual

/-- The code of an expression as a value has its shape, in every finished program. -/
theorem genValue_yields : (expr : Expr) → YieldsValue site expr (expr.genValue site)
  | int _ value => (yieldsValue_literal fun _ => rfl).unlessKnown
  | bool _ value => (yieldsValue_literal fun _ => rfl).unlessKnown
  | null _ => (yieldsValue_literal fun _ => rfl).unlessKnown
  | unary _ _ operand => (yieldsValue_unary (genValue_yields operand).pushed).unlessKnown
  | binary annot op left right => by
    unfold genValue
    refine YieldsValue.unlessKnown ?_
    dsimp only
    cases hfamily : op.isLogical with
    | true =>
      rw [if_pos rfl]
      exact yieldsValue_logical hfamily (genValue_yields left) (genValue_yields right)
    | false =>
      rw [if_neg (by simp)]
      exact yieldsValue_binary hfamily (genValue_yields left).pushed (genValue_yields right).pushed
  | ternary _ cond onTrue onFalse =>
    (yieldsValue_ternary (genCond_yields cond false) (genValue_yields onTrue).pushed
      (genValue_yields onFalse).pushed).unlessKnown
  | ref _ _ => yieldsValue_ref.unlessKnown
  | index _ _ subscript => (yieldsValue_index (genValue_yields subscript).pushed).unlessKnown
  | call _ _ args => (yieldsValue_call (genArgs_pushes args)).unlessKnown
  | newObject _ _ => yieldsValue_newObject.unlessKnown
  | newArray _ _ size => (yieldsValue_newArray (genValue_yields size).pushed).unlessKnown

/-- The code of an expression as a condition has its shape, in every finished program. -/
theorem genCond_yields :
    (expr : Expr) → (when : Bool) → YieldsCond site expr when (expr.genCond site when)
  | int _ value, _ => by
    unfold genCond
    exact (yieldsCond_constant fun _ => rfl).unlessKnown
  | bool annot value, when => by
    have hvalue : value = (Word.ofBool value).isTrue := by cases value <;> rfl
    have hcode : YieldsCond site (bool annot value) when (pure (.known (Word.ofBool value).isTrue)) :=
      yieldsCond_constant fun _ => rfl
    rw [← hvalue] at hcode
    unfold genCond
    exact hcode.unlessKnown
  | null _, _ => by
    unfold genCond
    exact (yieldsCond_constant fun _ => rfl).unlessKnown
  | unary _ .not operand, when => by
    unfold genCond
    exact (genCond_yields operand !when).not.unlessKnown
  | unary _ .neg operand, _ => by
    unfold genCond
    exact ((yieldsValue_unary (genValue_yields operand).pushed).jumpOn (by simp)).unlessKnown
  | binary annot op left right, when => by
    unfold genCond
    refine YieldsCond.unlessKnown ?_
    dsimp only
    cases hfamily : op.isLogical with
    | true =>
      rw [if_pos rfl]
      exact yieldsCond_chain hfamily (genCond_yields left) (genCond_yields right)
    | false =>
      rw [if_neg (by simp)]
      refine YieldsValue.jumpOn (yieldsValue_binary hfamily (genValue_yields left).pushed
        (genValue_yields right).pushed) ?_
      rintro _ _ _ _ ⟨⟩
      exact hfamily
  | ternary _ cond onTrue onFalse, _ => by
    unfold genCond
    exact ((yieldsValue_ternary (genCond_yields cond false) (genValue_yields onTrue).pushed
      (genValue_yields onFalse).pushed).jumpOn (by simp)).unlessKnown
  | ref _ _, _ => by
    unfold genCond
    exact (yieldsValue_ref.jumpOn (by simp)).unlessKnown
  | index _ _ subscript, _ => by
    unfold genCond
    exact ((yieldsValue_index (genValue_yields subscript).pushed).jumpOn (by simp)).unlessKnown
  | call _ _ args, _ => by
    unfold genCond
    exact ((yieldsValue_call (genArgs_pushes args)).jumpOn (by simp)).unlessKnown
  | newObject _ _, _ => by
    unfold genCond
    exact (yieldsValue_newObject.jumpOn (by simp)).unlessKnown
  | newArray _ _ size, _ => by
    unfold genCond
    exact ((yieldsValue_newArray (genValue_yields size).pushed).jumpOn (by simp)).unlessKnown

/-- Arguments are pushed in order. -/
theorem genArgs_pushes : (args : List Expr) → PushesAll site args (genArgs site args)
  | [] => pushesAll_nil
  | arg :: rest => Pushes.cons (genValue_yields arg).pushed (genArgs_pushes rest)

end

theorem genPush_pushes (expr : Expr) : Pushes site expr (expr.genPush site) :=
  (genValue_yields site expr).pushed

end Expr

end SmallJava
