import SmallJava.Proofs.Codegen.Extent
import SmallJava.Proofs.Region.Access

namespace SmallJava

def Expr.optionUses (expr : Option Expr) : List Use := (expr.map uses).getD []

theorem Expr.uses_subset_of_option {uses : List Use} {expr : Option Expr}
    (h : Expr.optionUses expr ⊆ uses) : ∀ found ∈ expr, found.uses ⊆ uses := by
  rintro found ⟨⟩
  exact h

namespace Stmt

mutual

def uses : Stmt → List Use
  | block _ stmts => allUses stmts
  | varDecl _ _ init => init.uses
  | assign _ target value => target.uses ++ value.uses
  | indexAssign _ target subscript value => target.uses ++ (subscript.uses ++ value.uses)
  | call _ callee args => callee.uses ++ Expr.allUses args
  | .return _ value => Expr.optionUses value
  | ifElse _ cond onTrue onFalse => cond.uses ++ (onTrue.uses ++ optionUses onFalse)
  | .while _ cond body => cond.uses ++ body.uses
  | .for _ init cond update body =>
    optionUses init ++ (Expr.optionUses cond ++ (optionUses update ++ body.uses))

def optionUses : Option Stmt → List Use
  | none => []
  | some stmt => stmt.uses

def allUses : List Stmt → List Use
  | [] => []
  | stmt :: rest => stmt.uses ++ allUses rest

end

end Stmt

section Statements

variable {im : Image} {Γ : Context} {statics : Int} {uses : List Use}

theorem PopCode.explained {count : Int} {a b : Nat} (h : PopCode im count a b) :
    im.Explained Γ statics uses a b := by
  cases h with
  | some _ hpop => exact hpop.other rfl
  | none => exact .refl _

/-- A value goes where the assignment was prepared for. -/
theorem StoreCode.explained {site : Site} {target : Reference} {value : Value} {expr : Expr}
    {fold : Folding} {known known' : Dict SymbolId Word} {destination : Destination} {b c : Nat}
    (h : StoreCode im site target value known destination c known')
    (hvalue : expr.PushCode im fold b c)
    (hplace : im.Prepared Γ statics uses b destination) :
    im.Explained Γ statics uses c (c + 1) := by
  cases h with
  | «variable» hstore => exact (Image.Explains.store hplace hstore).one
  | field _ hstore => exact (Image.Explains.store hplace hstore).one
  | otherField hstore =>
    obtain ⟨o, rfl, hoffset⟩ := hplace
    exact (Image.Explains.fieldupd hoffset hvalue hstore).one

theorem TestCode.explained {fold : Folding} {cond : Option Expr} {when : Bool} {outcome : Option Bool}
    {vars : List SymbolId} {a b t : Nat} (harr : im.Arranged Γ statics)
    (hvars : im.Holding Γ statics vars) (h : TestCode im fold cond when outcome a b t)
    (htyped : ∀ expr ∈ cond, expr.Typed Γ vars) (huses : ∀ expr ∈ cond, expr.uses ⊆ uses) :
    im.Explained Γ statics uses a b := by
  cases h with
  | none => exact .refl _
  | some hcond => exact hcond.explained harr hvars (htyped _ rfl) (huses _ rfl)

theorem BackCode.explained {fold : Folding} {cond : Option Expr} {vars : List SymbolId}
    {a b start : Nat} (harr : im.Arranged Γ statics) (hvars : im.Holding Γ statics vars)
    (h : BackCode im fold cond a b start) (htyped : ∀ expr ∈ cond, expr.Typed Γ vars)
    (huses : ∀ expr ∈ cond, expr.uses ⊆ uses) : im.Explained Γ statics uses a b := by
  cases h with
  | always _ hjump => exact hjump.other rfl
  | never => exact .refl _
  | test htest => exact htest.explained harr hvars htyped huses

namespace Stmt

mutual

/-- No local variable is released that was there before. -/
theorem Code.next_le {site : Site} {stmt : Stmt} {φ φ' : Tracked} {a b : Nat} :
    stmt.Code im site φ a b φ' → φ.next ≤ φ'.next
  | .block _ _ | .assignKnown _ _ _ _ | .assign _ _ _ | .indexAssign _ _ _ _ | .call _ _ _
  | .returnValue _ _ | .return _ | .for _ _ _ => Int.le_refl _
  | .varDeclKnown _ _ _ _ => by
    dsimp only
    omega
  | .varDecl _ _ _ => by
    dsimp only
    omega
  | .ifTrue _ hTrue => hTrue.next_le
  | .ifFalse _ hFalse => hFalse.next_le
  | .ifOnly _ hTrue => hTrue.next_le
  | .ifElse _ hTrue _ hFalse => Int.le_trans hTrue.next_le hFalse.next_le
  | .while hloop => hloop.next_le

theorem LoopCode.next_le {site : Site} {cond : Option Expr} {body : Stmt} {update : Option Stmt}
    {φ φ' : Tracked} {a b : Nat} : LoopCode im site cond body update φ a b φ' → φ.next ≤ φ'.next
  | .skip _ => Int.le_refl _
  | .forever _ hbody hupdate _ => Int.le_trans hbody.next_le hupdate.next_le
  | .test _ hbody hupdate _ => Int.le_trans hbody.next_le hupdate.next_le

theorem OptionCode.next_le {site : Site} {stmt : Option Stmt} {φ φ' : Tracked} {a b : Nat} :
    OptionCode im site stmt φ a b φ' → φ.next ≤ φ'.next
  | .none => Int.le_refl _
  | .some hstmt => hstmt.next_le

theorem ListCode.next_le {site : Site} {stmts : List Stmt} {φ φ' : Tracked} {a b : Nat} :
    ListCode im site stmts φ a b φ' → φ.next ≤ φ'.next
  | .nil => Int.le_refl _
  | .cons hstmt hrest => Int.le_trans hstmt.next_le hrest.next_le

end

/-- The variables in force, with those that a statement brings into force, lie in the frame. -/
abbrev Declares (im : Image) (Γ : Context) (statics : Int) (locals binds : List SymbolId) : Prop :=
  im.Holding Γ statics (Γ.params ++ (locals ++ binds))

/-- A new local variable lies after the link data. -/
theorem declares_local {locals : List SymbolId} {var : LocalDef} {x : SymbolId} {d : Int}
    (hvars : im.Holding Γ statics (Γ.params ++ locals)) (hbound : var.binding = some x)
    (hslot : im.slot? x = some d) (hd : linkDataSize ≤ d) :
    Declares im Γ statics locals var.binding.toList := by
  intro y hmem e hy
  rw [hbound, Option.toList_some, ← List.append_assoc] at hmem
  obtain hmem | hmem := List.mem_append.1 hmem
  · exact hvars y hmem e hy
  · obtain rfl := List.mem_singleton.1 hmem
    obtain rfl := Option.some.inj (hslot.symm.trans hy)
    exact .local hd

theorem declares_nothing {locals : List SymbolId}
    (hvars : im.Holding Γ statics (Γ.params ++ locals)) : Declares im Γ statics locals [] := by
  rwa [Declares, List.append_nil]

section Simple

variable {locals : List SymbolId} {fold : Folding} {span : Span} {a b c d : Nat}

/-! Statements that have no other statements as parts. -/

/-- Every instruction of a declaration is there for its initial value, and the variable lies in the
    frame. -/
theorem explained_varDecl {var : LocalDef} {init : Expr} {x : SymbolId} {next : Int}
    (harr : im.Arranged Γ statics) (hnext : linkDataSize ≤ next)
    (hvars : im.Holding Γ statics (Γ.params ++ locals)) (hbound : var.binding = some x)
    (hslot : (im.signature.kind? x).isSome → im.slot? x = some next)
    (hinit : init.PushCode im fold a b) (htyped : (varDecl span var init).WellTyped Γ locals)
    (huses : init.uses ⊆ uses) :
    im.Explained Γ statics uses a b ∧ Declares im Γ statics locals var.binding.toList := by
  cases htyped with
  | varDecl hbound' hkind _ hinit' _ =>
    obtain rfl := Option.some.inj (hbound'.symm.trans hbound)
    have hslot := hslot (by rw [← harr.sig, hkind]; rfl)
    exact ⟨hinit.explained harr hvars ⟨_, hinit'⟩ huses, declares_local hvars hbound hslot hnext⟩

/-- Every instruction of an assignment is there for its target or its value. -/
theorem explained_assign {site : Site} {target : Reference} {expr : Expr}
    {destination : Destination} {value : Value} {known known' : Dict SymbolId Word}
    (harr : im.Arranged Γ statics) (hvars : im.Holding Γ statics (Γ.params ++ locals))
    (htarget : target.DestinationCode im destination a b) (hvalue : expr.PushCode im fold b c)
    (hstore : StoreCode im site target value known destination c known')
    (htyped : (assign span target expr).WellTyped Γ locals)
    (huses : (assign span target expr).uses ⊆ uses) : im.Explained Γ statics uses a (c + 1) := by
  obtain ⟨huses, huses'⟩ := List.append_subset.1 huses
  cases htyped with
  | assign htarget' _ hvalue' _ =>
    obtain ⟨hprepared, hplace⟩ := htarget.explained harr hvars htarget' huses
    have hstored := hstore.explained hvalue hplace
    have hpushed := hvalue.explained harr hvars ⟨_, hvalue'⟩ huses'
    exact (hprepared.trans hpushed).trans hstored

/-- Every instruction of an assignment to an array element is there for the array, the index or the
    value. -/
theorem explained_indexAssign {target : Reference} {subscript value : Expr}
    (harr : im.Arranged Γ statics) (hvars : im.Holding Γ statics (Γ.params ++ locals))
    (htarget : target.PushCode im a b) (hsubscript : subscript.PushCode im fold b c)
    (hvalue : value.PushCode im fold c d) (hstore : im.Holds d (.primitive .arrayupd))
    (htyped : (indexAssign span target subscript value).WellTyped Γ locals)
    (huses : (indexAssign span target subscript value).uses ⊆ uses) :
    im.Explained Γ statics uses a (d + 1) := by
  obtain ⟨huses, huses'⟩ := List.append_subset.1 huses
  obtain ⟨huses', huses''⟩ := List.append_subset.1 huses'
  cases htyped with
  | indexAssign htarget' hsubscript' hvalue' _ =>
    have htarget := htarget.explained harr hvars htarget' huses
    have hsubscript := hsubscript.explained harr hvars ⟨_, hsubscript'⟩ huses'
    have hvalue := hvalue.explained harr hvars ⟨_, hvalue'⟩ huses''
    have hpushed := (htarget.trans hsubscript).trans hvalue
    exact hpushed.trans (hstore.other rfl)

/-- Every instruction of a call is there for its path or its arguments. -/
theorem explained_call {callee : Reference} {args : List Expr} {method : SymbolId} {count : Int}
    (harr : im.Arranged Γ statics) (hvars : im.Holding Γ statics (Γ.params ++ locals))
    (hargs : Expr.ArgsCode im fold args a b) (hinvoke : callee.InvokeCode im method b c)
    (hpop : PopCode im count c d) (htyped : (call span callee args).WellTyped Γ locals)
    (huses : (call span callee args).uses ⊆ uses) : im.Explained Γ statics uses a d := by
  obtain ⟨huses, huses'⟩ := List.append_subset.1 huses
  cases htyped with
  | call hcallee hargs' =>
    have hargs := hargs.explained harr hvars hargs' huses'
    have hinvoke := hinvoke.explained harr hvars hcallee huses
    exact (hargs.trans hinvoke).trans hpop.explained

/-- Every instruction of a return is there for its value. -/
theorem explained_returnValue {value : Expr} {results args : Int} (harr : im.Arranged Γ statics)
    (hvars : im.Holding Γ statics (Γ.params ++ locals)) (hvalue : value.PushCode im fold a b)
    (hreturn : im.Holds b (.returnWith results args))
    (htyped : (Stmt.return span (some value)).WellTyped Γ locals) (huses : value.uses ⊆ uses) :
    im.Explained Γ statics uses a (b + 1) := by
  cases htyped with
  | returnValue _ hvalue' _ =>
    have hvalue := hvalue.explained harr hvars ⟨_, hvalue'⟩ huses
    exact hvalue.trans (hreturn.other rfl)

end Simple

mutual

/-- All instructions of a statement are explained, and its local variable lies in the frame. -/
theorem Code.explained {site : Site} {stmt : Stmt} {locals : List SymbolId} {φ φ' : Tracked}
    {a b : Nat} (harr : im.Arranged Γ statics) (hnext : linkDataSize ≤ φ.next)
    (hvars : im.Holding Γ statics (Γ.params ++ locals)) :
    stmt.Code im site φ a b φ' → stmt.WellTyped Γ locals → stmt.uses ⊆ uses →
      im.Explained Γ statics uses a b ∧ Declares im Γ statics locals stmt.binds
  | .block hstmts hpop => by
    intro htyped huses
    cases htyped with
    | block hstmts' =>
      have hstmts := hstmts.explained harr hnext hvars hstmts' huses
      exact ⟨hstmts.trans hpop.explained, declares_nothing hvars⟩
  | .varDeclKnown hbound hslot hinit hliteral => by
    intro htyped huses
    exact explained_varDecl harr hnext hvars hbound hslot (.known hinit hliteral) htyped huses
  | .varDecl hbound hslot hinit => by
    intro htyped huses
    exact explained_varDecl harr hnext hvars hbound hslot (.onStack hinit) htyped huses
  | .assignKnown htarget hvalue hliteral hstore => by
    intro htyped huses
    have hcode := explained_assign harr hvars htarget (.known hvalue hliteral) hstore htyped huses
    exact ⟨hcode, declares_nothing hvars⟩
  | .assign htarget hvalue hstore => by
    intro htyped huses
    have hcode := explained_assign harr hvars htarget (.onStack hvalue) hstore htyped huses
    exact ⟨hcode, declares_nothing hvars⟩
  | .indexAssign htarget hsubscript hvalue hstore => by
    intro htyped huses
    have hcode := explained_indexAssign harr hvars htarget hsubscript hvalue hstore htyped huses
    exact ⟨hcode, declares_nothing hvars⟩
  | .call hargs hinvoke hpop => by
    intro htyped huses
    have hcode := explained_call harr hvars hargs hinvoke hpop htyped huses
    exact ⟨hcode, declares_nothing hvars⟩
  | .returnValue hvalue hreturn => by
    intro htyped huses
    have hcode := explained_returnValue harr hvars hvalue hreturn htyped huses
    exact ⟨hcode, declares_nothing hvars⟩
  | .return hreturn => fun _ _ => ⟨hreturn.other rfl, declares_nothing hvars⟩
  | .ifTrue _ hTrue => by
    intro htyped huses
    obtain ⟨-, huses⟩ := List.append_subset.1 huses
    obtain ⟨huses, -⟩ := List.append_subset.1 huses
    cases htyped with
    | ifElse _ hTrue' _ =>
      obtain ⟨hTrue, -⟩ := hTrue.explained harr hnext hvars hTrue'.typed huses
      exact ⟨hTrue, declares_nothing hvars⟩
  | .ifFalse _ hFalse => by
    intro htyped huses
    obtain ⟨-, huses⟩ := List.append_subset.1 huses
    obtain ⟨-, huses⟩ := List.append_subset.1 huses
    cases htyped with
    | ifElse _ _ hFalse' =>
      obtain ⟨hFalse, -⟩ := hFalse.explained harr hnext hvars
        (fun stmt hmem => (hFalse' stmt hmem).typed) huses
      exact ⟨hFalse, declares_nothing hvars⟩
  | .ifOnly hcond hTrue => by
    intro htyped huses
    obtain ⟨husesCond, huses⟩ := List.append_subset.1 huses
    obtain ⟨huses, -⟩ := List.append_subset.1 huses
    cases htyped with
    | ifElse hcond' hTrue' _ =>
      have hcond := hcond.explained harr hvars ⟨_, hcond'⟩ husesCond
      obtain ⟨hTrue, -⟩ := hTrue.explained harr hnext hvars hTrue'.typed huses
      exact ⟨hcond.trans hTrue, declares_nothing hvars⟩
  | .ifElse hcond hTrue hdone hFalse => by
    intro htyped huses
    have hnext' := hTrue.next_le
    obtain ⟨husesCond, huses⟩ := List.append_subset.1 huses
    obtain ⟨huses, huses'⟩ := List.append_subset.1 huses
    cases htyped with
    | ifElse hcond' hTrue' hFalse' =>
      have hcond := hcond.explained harr hvars ⟨_, hcond'⟩ husesCond
      obtain ⟨hTrue, -⟩ := hTrue.explained harr hnext hvars hTrue'.typed huses
      obtain ⟨hFalse, -⟩ := hFalse.explained harr (by omega) hvars (hFalse' _ rfl).typed huses'
      have hdone := (hcond.trans hTrue).trans (hdone.other rfl)
      exact ⟨hdone.trans hFalse, declares_nothing hvars⟩
  | .while hloop => by
    intro htyped huses
    obtain ⟨husesCond, huses⟩ := List.append_subset.1 huses
    cases htyped with
    | «while» hcond hbody =>
      refine ⟨?_, declares_nothing hvars⟩
      exact hloop.explained harr hnext hvars (by simpa using hcond) (by simpa using husesCond)
        nofun (by simp [optionUses]) (by simpa [optionBinds] using hbody) huses
  | .for hinit hloop hpop => by
    intro htyped huses
    have hnext' := hinit.next_le
    obtain ⟨husesInit, huses⟩ := List.append_subset.1 huses
    obtain ⟨husesCond, huses⟩ := List.append_subset.1 huses
    obtain ⟨husesUpdate, huses⟩ := List.append_subset.1 huses
    cases htyped with
    | «for» hinit' hcond hupdate hbody =>
      have husesCond := Expr.uses_subset_of_option husesCond
      obtain ⟨hinit, hvars'⟩ := hinit.explained harr hnext hvars hinit' husesInit
      have hloop := hloop.explained harr (by omega) hvars' hcond husesCond hupdate husesUpdate hbody
        huses
      exact ⟨(hinit.trans hloop).trans hpop.explained, declares_nothing hvars⟩

/-- The update of a loop stands after its body, but its local variable is in force there. -/
theorem LoopCode.explained {site : Site} {cond : Option Expr} {body : Stmt} {update : Option Stmt}
    {locals : List SymbolId} {φ φ' : Tracked} {a b : Nat} (harr : im.Arranged Γ statics)
    (hnext : linkDataSize ≤ φ.next) (hvars : im.Holding Γ statics (Γ.params ++ locals)) :
    LoopCode im site cond body update φ a b φ' →
      (∀ expr ∈ cond, expr.HasType Γ (Γ.params ++ locals) .boolean) →
        (∀ expr ∈ cond, expr.uses ⊆ uses) → (∀ stmt ∈ update, stmt.WellTyped Γ locals) →
          optionUses update ⊆ uses → body.BranchWellTyped Γ (locals ++ optionBinds update) →
            body.uses ⊆ uses → im.Explained Γ statics uses a b
  | .skip _ => fun _ _ _ _ _ _ => .refl _
  | .forever _ hbody hupdate hback => by
    intro hcond husesCond hupdate' huses' hbody' huses
    have hnext' := hbody.next_le
    have hcond : ∀ expr ∈ cond, expr.Typed Γ (Γ.params ++ locals) :=
      fun expr hmem => ⟨_, hcond expr hmem⟩
    obtain ⟨hupdate, hvars'⟩ := hupdate.explained harr (by omega) hvars hupdate' huses'
    obtain ⟨hbody, -⟩ := hbody.explained harr hnext hvars' hbody'.typed huses
    have hback := hback.explained harr hvars hcond husesCond
    exact (hbody.trans hupdate).trans hback
  | .test htest hbody hupdate hback => by
    intro hcond husesCond hupdate' huses' hbody' huses
    have hnext' := hbody.next_le
    have hcond : ∀ expr ∈ cond, expr.Typed Γ (Γ.params ++ locals) :=
      fun expr hmem => ⟨_, hcond expr hmem⟩
    have htest := htest.explained harr hvars hcond husesCond
    obtain ⟨hupdate, hvars'⟩ := hupdate.explained harr (by omega) hvars hupdate' huses'
    obtain ⟨hbody, -⟩ := hbody.explained harr hnext hvars' hbody'.typed huses
    have hround := htest.trans (hbody.trans hupdate)
    exact hround.trans (hback.explained harr hvars hcond husesCond)

/-- Every instruction of a statement that may be left out is there for something that the statement
    uses. -/
theorem OptionCode.explained {site : Site} {stmt : Option Stmt} {locals : List SymbolId}
    {φ φ' : Tracked} {a b : Nat} (harr : im.Arranged Γ statics) (hnext : linkDataSize ≤ φ.next)
    (hvars : im.Holding Γ statics (Γ.params ++ locals)) :
    OptionCode im site stmt φ a b φ' → (∀ s ∈ stmt, s.WellTyped Γ locals) →
      optionUses stmt ⊆ uses →
        im.Explained Γ statics uses a b ∧ Declares im Γ statics locals (optionBinds stmt)
  | .none => fun _ _ => ⟨.refl _, declares_nothing hvars⟩
  | .some hstmt => by
    intro htyped huses
    exact hstmt.explained harr hnext hvars (htyped _ rfl) huses

/-- Every instruction of statements in a row is there for something that one of them uses. -/
theorem ListCode.explained {site : Site} {stmts : List Stmt} {locals : List SymbolId}
    {φ φ' : Tracked} {a b : Nat} (harr : im.Arranged Γ statics) (hnext : linkDataSize ≤ φ.next)
    (hvars : im.Holding Γ statics (Γ.params ++ locals)) :
    ListCode im site stmts φ a b φ' → Stmt.ListWellTyped Γ locals stmts → allUses stmts ⊆ uses →
      im.Explained Γ statics uses a b
  | .nil => fun _ _ => .refl _
  | .cons hstmt hrest => by
    intro htyped huses
    have hnext' := hstmt.next_le
    obtain ⟨huses, huses'⟩ := List.append_subset.1 huses
    cases htyped with
    | cons hstmt' hrest' =>
      obtain ⟨hstmt, hvars'⟩ := hstmt.explained harr hnext hvars hstmt' huses
      have hrest := hrest.explained harr (by omega) hvars' hrest' huses'
      exact hstmt.trans hrest

end

end Stmt

end Statements

end SmallJava
