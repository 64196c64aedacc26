import SmallJava.Proofs.Execution.Expressions
import SmallJava.Proofs.Execution.StmtSafety

namespace SmallJava

open Exec

/-- What is known once a variable has the value. -/
def Value.record (x : SymbolId) (known : Dict SymbolId Word) : Value → Dict SymbolId Word
  | .known word => known.insert x word
  | .onStack => known.erase x

/-- What is known of variables is right. Only variables of methods are known. -/
structure Context.Knows (Γ : Context) (vars : List SymbolId) (env : Valuation)
    (known : Dict SymbolId Word) : Prop where
  kinds : ∀ x word, known.get? x = some word →
    Γ.sig.kind? x = some .localVar ∨ Γ.sig.kind? x = some .param
  values : ∀ x ∈ vars, ∀ word, known.get? x = some word → env x = .ofWord word

/-- Nothing more gets known of the variables in force. -/
def Context.Forgets (Γ : Context) (vars : List SymbolId) (known known' : Dict SymbolId Word) :
    Prop :=
  ∀ x word, known'.get? x = some word →
    known.get? x = some word ∨ (x ∉ vars ∧ Γ.sig.kind? x = some .localVar)

/-- After a statement at a site, what is tracked is right of the variables then in force. In a
    loop, where nothing is relied on, the variables still known are those that kept their
    value. -/
structure Site.Tracks (site : Site) (Γ : Context) (vars vars' : List SymbolId)
    (env env' : Valuation) (known : Dict SymbolId Word) : Prop where
  knows : Γ.Knows vars' env' (site.relies known)
  keeps : site.inLoop = true → ∀ x ∈ vars, ∀ word, known.get? x = some word → env' x = env x

variable {Γ : Context} {site : Site} {vars vars₁ vars₂ : List SymbolId} {env env₁ env₂ : Valuation}
  {known known₁ known₂ : Dict SymbolId Word} {x : SymbolId} {d : Datum}

namespace Context

theorem Forgets.refl : Γ.Forgets vars known known := fun _ _ hget => .inl hget

theorem Forgets.subset (h : Γ.Forgets vars₁ known known₁) (hsub : vars ⊆ vars₁) :
    Γ.Forgets vars known known₁ :=
  fun x word hget => (h x word hget).imp_right (And.imp_left (mt (hsub ·)))

theorem Forgets.trans (h : Γ.Forgets vars known known₁) (h' : Γ.Forgets vars known₁ known₂) :
    Γ.Forgets vars known known₂ := by
  intro x word hget
  obtain hget | hnew := h' x word hget
  · exact h x word hget
  · exact .inr hnew

theorem forgets_erase : Γ.Forgets vars known (known.erase x) := by
  intro y word hget
  rw [Dict.get?_erase] at hget
  split at hget
  next => cases hget
  next => exact .inl hget

/-- To know a variable that was not in force before is to forget nothing. -/
theorem forgets_insert (hnew : x ∉ vars) (hkind : Γ.sig.kind? x = some .localVar) (word : Word) :
    Γ.Forgets vars known (known.insert x word) := by
  intro y word' hget
  rw [Dict.get?_insert] at hget
  split at hget
  next heq =>
    subst heq
    exact .inr ⟨hnew, hkind⟩
  next => exact .inl hget

theorem knows_empty : Γ.Knows vars env .empty := ⟨nofun, nofun⟩

/-- Variables that are still known have kept their value. -/
theorem Knows.forget (h : Γ.Knows vars env known) (hforgets : Γ.Forgets vars known known₁)
    (hsame : ∀ x ∈ vars, ∀ word, known₁.get? x = some word → env₁ x = env x) :
    Γ.Knows vars env₁ known₁ where
  kinds := by
    intro x word hget
    obtain hget | ⟨-, hkind⟩ := hforgets x word hget
    · exact h.kinds x word hget
    · exact .inl hkind
  values := by
    intro x hmem word hget
    rw [hsame x hmem word hget]
    obtain hget | ⟨hnew, -⟩ := hforgets x word hget
    · exact h.values x hmem word hget
    · exact absurd hmem hnew

/-- What is known stays right when a variable is given a known value. -/
theorem Knows.insert (h : Γ.Knows vars env known) {word : Word}
    (hkind : Γ.sig.kind? x = some .localVar ∨ Γ.sig.kind? x = some .param)
    (hvars : ∀ y ∈ vars₁, y ≠ x → y ∈ vars) :
    Γ.Knows vars₁ (Function.update env x (.ofWord word)) (known.insert x word) where
  kinds := by
    intro y word' hget
    rw [Dict.get?_insert] at hget
    split at hget
    next heq => exact heq ▸ hkind
    next => exact h.kinds y word' hget
  values := by
    intro y hmem word' hget
    rw [Dict.get?_insert] at hget
    split at hget
    next heq =>
      obtain rfl := Option.some.inj hget
      rw [heq, Function.update_self]
    next hne =>
      rw [Function.update_of_ne hne]
      exact h.values y (hvars y hmem hne) word' hget

/-- What is known stays right when a variable is given any value and is no longer known. -/
theorem Knows.erase (h : Γ.Knows vars env known) (hvars : ∀ y ∈ vars₁, y ≠ x → y ∈ vars) :
    Γ.Knows vars₁ (Function.update env x d) (known.erase x) where
  kinds := by
    intro y word hget
    rw [Dict.get?_erase] at hget
    split at hget
    next => cases hget
    next => exact h.kinds y word hget
  values := by
    intro y hmem word hget
    rw [Dict.get?_erase] at hget
    split at hget
    next => cases hget
    next hne =>
      rw [Function.update_of_ne hne]
      exact h.values y (hvars y hmem hne) word hget

theorem Knows.subset (h : Γ.Knows vars₁ env known) (hsub : vars ⊆ vars₁) : Γ.Knows vars env known :=
  ⟨h.kinds, fun x hmem => h.values x (hsub hmem)⟩

end Context

namespace Site

theorem relies_loop (hloop : site.inLoop = true) : site.relies known = .empty := if_pos hloop

theorem relies_straight (hloop : site.inLoop = false) : site.relies known = known :=
  if_neg (by simp [hloop])

/-- What holds of the variables where a loop is possible holds where there is none. -/
theorem knows_relies (h : site.inLoop = false → Γ.Knows vars env known) :
    Γ.Knows vars env (site.relies known) := by
  cases hloop : site.inLoop with
  | true =>
    rw [relies_loop hloop]
    exact Context.knows_empty
  | false =>
    rw [relies_straight hloop]
    exact h hloop

/-- Constants at a site are what expressions yield. -/
theorem faithful {sc : Scene} (hsig : sc.sig = Γ.sig)
    (hknows : Γ.Knows vars env (site.relies known)) : (site.fold known).Faithful sc Γ vars env :=
  fun expr _ htyped hword => expr.eval_of_constant hsig hknows.kinds hknows.values htyped hword

namespace Tracks

theorem refl (hknows : Γ.Knows vars env (site.relies known)) :
    site.Tracks Γ vars vars env env known :=
  ⟨hknows, fun _ _ _ _ _ => rfl⟩

theorem subset (h : site.Tracks Γ vars vars₁ env env₁ known) (hsub : vars₂ ⊆ vars₁) :
    site.Tracks Γ vars vars₂ env env₁ known :=
  ⟨h.knows.subset hsub, h.keeps⟩

/-- Two statements in a row keep track of the variables if, in a loop, the second makes nothing known
    of those in force. -/
theorem trans (h : site.Tracks Γ vars vars₁ env env₁ known₁)
    (h' : site.Tracks Γ vars₁ vars₂ env₁ env₂ known₂) (hsub : vars ⊆ vars₁)
    (hforgets : site.inLoop = true → Γ.Forgets vars₁ known₁ known₂) :
    site.Tracks Γ vars vars₂ env env₂ known₂ where
  knows := h'.knows
  keeps := by
    intro hloop x hmem word hget
    rw [h'.keeps hloop x (hsub hmem) word hget]
    obtain hget | ⟨hnew, -⟩ := hforgets hloop x word hget
    · exact h.keeps hloop x hmem word hget
    · exact absurd (hsub hmem) hnew

/-- Forgetting more does no harm. -/
theorem forget (h : site.Tracks Γ vars vars env env₁ known₁)
    (hforgets : Γ.Forgets vars known₁ known₂) : site.Tracks Γ vars vars env env₁ known₂ := by
  refine h.trans ⟨knows_relies fun hloop => ?_, fun _ _ _ _ _ => rfl⟩ (List.Subset.refl _)
    fun _ => hforgets
  have hknows := h.knows
  rw [relies_straight hloop] at hknows
  exact hknows.forget hforgets fun _ _ _ _ => rfl

/-- A new local variable. -/
theorem declare (hknows : Γ.Knows vars env (site.relies known)) {value : Value} (hnew : x ∉ vars)
    (hkind : Γ.sig.kind? x = some .localVar) (hd : value.Is d)
    (hvars : ∀ y ∈ vars₁, y ≠ x → y ∈ vars) :
    site.Tracks Γ vars vars₁ env (Function.update env x d) (value.record x known) where
  knows := by
    refine knows_relies fun hloop => ?_
    rw [relies_straight hloop] at hknows
    cases value with
    | known word =>
      obtain rfl : d = .ofWord word := hd
      exact hknows.insert (.inl hkind) hvars
    | onStack => exact hknows.erase hvars
  keeps := by
    intro _ y hmem _ _
    refine Function.update_of_ne ?_ _ _
    rintro rfl
    exact hnew hmem

/-- An assignment to a variable. -/
theorem assign (hknows : Γ.Knows vars env (site.relies known)) {target : Reference} {value : Value}
    (hbound : target.binding = some x)
    (hkind : Γ.sig.kind? x = some .localVar ∨ Γ.sig.kind? x = some .param) (hd : value.Is d) :
    site.Tracks Γ vars vars env (Function.update env x d) (site.track target value known) where
  knows := by
    refine knows_relies fun hloop => ?_
    rw [relies_straight hloop] at hknows
    unfold Site.track
    rw [hbound]
    cases value with
    | onStack => exact hknows.erase fun y hmem _ => hmem
    | known word =>
      dsimp only
      split
      next =>
        obtain rfl : d = .ofWord word := hd
        exact hknows.insert hkind fun y hmem _ => hmem
      next => exact hknows.erase fun y hmem _ => hmem
  keeps := by
    intro hloop y _ word hget
    have herased : site.track target value known = known.erase x := by
      unfold Site.track
      rw [hbound]
      cases value with
      | onStack => rfl
      | known word => simp [hloop]
    rw [herased, Dict.get?_erase] at hget
    split at hget
    next => cases hget
    next hne => exact Function.update_of_ne hne _ _

end Tracks

end Site

/-- In a branch or a loop an assignment makes nothing known that was not. -/
theorem Site.forgets_track {target : Reference} {value : Value}
    (hsite : (!site.inBranch && !site.inLoop) = false) :
    Γ.Forgets vars known (site.track target value known) := by
  unfold Site.track
  cases target.binding with
  | none => exact .refl
  | some x =>
    cases value with
    | onStack => exact Context.forgets_erase
    | known word =>
      dsimp only
      rw [if_neg (by simp [hsite])]
      exact Context.forgets_erase

/-- In a branch or a loop a store makes nothing known that was not. -/
theorem StoreCode.forgets {im : Image} {target : Reference} {value : Value} {destination : Destination}
    {a : Nat} (hsite : (!site.inBranch && !site.inLoop) = false)
    (h : StoreCode im site target value known destination a known₁) : Γ.Forgets vars known known₁ := by
  cases h with
  | «variable» => exact Site.forgets_track hsite
  | field => exact .refl
  | otherField => exact .refl

namespace Stmt

variable {im : Image}

mutual

/-- Where a statement may be skipped or run again, nothing is learnt of the variables in force
    around it. -/
theorem Code.forgets {site : Site} {stmt : Stmt} {locals : List SymbolId} {φ φ' : Tracked}
    {a b : Nat} (hsite : (!site.inBranch && !site.inLoop) = false) :
    stmt.Code im site φ a b φ' → stmt.WellTyped Γ locals →
      Γ.Forgets (Γ.params ++ locals) φ.known φ'.known
  | .block hstmts _ => by
    intro htyped
    cases htyped with
    | block hstmts' =>
      -- A block gives its slots back, which does not touch what is known.
      have hforgets := hstmts.forgets hsite hstmts'
      exact hforgets
  | .varDeclKnown hbound _ _ _ => by
    intro htyped
    cases htyped with
    | varDecl hbound' hkind hfresh =>
      obtain rfl := Option.some.inj (hbound'.symm.trans hbound)
      exact Context.forgets_insert hfresh hkind _
  | .varDecl _ _ _ => fun _ => Context.forgets_erase
  | .assignKnown _ _ _ hstore => fun _ => hstore.forgets hsite
  | .assign _ _ hstore => fun _ => hstore.forgets hsite
  | .indexAssign .. => fun _ => .refl
  | .call .. => fun _ => .refl
  | .returnValue .. => fun _ => .refl
  | .return .. => fun _ => .refl
  | .ifTrue _ hTrue => by
    intro htyped
    cases htyped with
    | ifElse _ hTrue' _ => exact hTrue.forgets hsite hTrue'.typed
  | .ifFalse _ hFalse => by
    intro htyped
    cases htyped with
    | ifElse _ _ hFalse' => exact hFalse.forgets hsite fun stmt hmem => (hFalse' stmt hmem).typed
  | .ifOnly _ hTrue => by
    intro htyped
    cases htyped with
    | ifElse _ hTrue' _ => exact hTrue.forgets rfl hTrue'.typed
  | .ifElse _ hTrue _ hFalse => by
    intro htyped
    cases htyped with
    | ifElse _ hTrue' hFalse' =>
      have hforgets := hTrue.forgets rfl hTrue'.typed
      exact hforgets.trans (hFalse.forgets rfl (hFalse' _ rfl).typed)
  | @Code.while _ _ _ _ body _ _ _ _ hloop => by
    intro htyped
    cases htyped with
    | «while» _ hbody =>
      have hbody : body.WellTyped Γ (locals ++ []) := by simpa using hbody.typed
      exact hloop.forgets (by simp [Site.loop]) hbody (by simp)
  | .for hinit hloop _ => by
    intro htyped
    cases htyped with
    | «for» hinit' _ hupdate hbody =>
      have hforgets := hinit.forgets hsite hinit'
      have hforgets' := hloop.forgets (by simp [Site.loop]) hbody.typed hupdate
      exact hforgets.trans (hforgets'.subset (Γ.subset_more _ _))

/-- In a branch or a loop the code of a loop makes nothing known that was not. -/
theorem LoopCode.forgets {site : Site} {cond : Option Expr} {body : Stmt} {update : Option Stmt}
    {locals more : List SymbolId} {φ φ' : Tracked} {a b : Nat}
    (hsite : (!site.inBranch && !site.inLoop) = false) :
    LoopCode im site cond body update φ a b φ' → body.WellTyped Γ (locals ++ more) →
      (∀ stmt ∈ update, stmt.WellTyped Γ locals) →
        Γ.Forgets (Γ.params ++ locals) φ.known φ'.known
  | .skip _ => fun _ _ => .refl
  | .forever _ hbody hupdate _ => by
    intro hbody' hupdate'
    have hforgets := (hbody.forgets hsite hbody').subset (Γ.subset_more _ _)
    exact hforgets.trans (hupdate.forgets hsite hupdate')
  | .test _ hbody hupdate _ => by
    intro hbody' hupdate'
    have hforgets := (hbody.forgets hsite hbody').subset (Γ.subset_more _ _)
    exact hforgets.trans (hupdate.forgets hsite hupdate')

theorem OptionCode.forgets {site : Site} {stmt : Option Stmt} {locals : List SymbolId}
    {φ φ' : Tracked} {a b : Nat} (hsite : (!site.inBranch && !site.inLoop) = false) :
    OptionCode im site stmt φ a b φ' → (∀ s ∈ stmt, s.WellTyped Γ locals) →
      Γ.Forgets (Γ.params ++ locals) φ.known φ'.known
  | .none => fun _ => .refl
  | .some hstmt => fun htyped => hstmt.forgets hsite (htyped _ rfl)

/-- In a branch or a loop the code of statements makes nothing known that was not. -/
theorem ListCode.forgets {site : Site} {stmts : List Stmt} {locals : List SymbolId}
    {φ φ' : Tracked} {a b : Nat} (hsite : (!site.inBranch && !site.inLoop) = false) :
    ListCode im site stmts φ a b φ' → ListWellTyped Γ locals stmts →
      Γ.Forgets (Γ.params ++ locals) φ.known φ'.known
  | .nil => fun _ => .refl
  | .cons hstmt hrest => by
    intro htyped
    cases htyped with
    | cons hstmt' hrest' =>
      have hforgets := hstmt.forgets hsite hstmt'
      exact hforgets.trans ((hrest.forgets hsite hrest').subset (Γ.subset_more _ _))

end

end Stmt

end SmallJava
