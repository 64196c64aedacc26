import Mathlib.Data.List.Forall2
import SmallJava.Proofs.Analysis.Oblivious
import SmallJava.Proofs.Reporting.Bodies

/-! A rule that reports nothing still reports nothing when some of its types become errors. -/

namespace SmallJava

/-- The second type is the first one, or that of a mistake. -/
def Ty.OrError (ty ty' : Ty) : Prop := ty' = ty ∨ ty' = .error

namespace Ty.OrError

variable {left left' right right' ty ty' : Ty}

theorem refl (ty : Ty) : ty.OrError ty := .inl rfl

/-- Types that agree are both supported, and so both agree with an error. -/
theorem agrees (hleft : left.OrError left') (hright : right.OrError right')
    (h : left.agrees right = true) : left'.agrees right' = true := by
  obtain ⟨hleft', hright'⟩ := supported_of_agrees h
  obtain rfl | rfl := hleft
  · obtain rfl | rfl := hright
    · exact h
    · cases left' <;> first | rfl | exact absurd rfl hleft'
  · obtain rfl | rfl := hright
    · cases right' <;> first | rfl | exact absurd rfl hright'
    · rfl

theorem not_isVoid (h : ty.OrError ty') (hvoid : ty.isVoid = false) : ty'.isVoid = false := by
  obtain rfl | rfl := h
  · exact hvoid
  · rfl

end Ty.OrError

theorem UnaryOp.result?_absorbs {op : UnaryOp} {ty ty' found : Ty} (hty : ty.OrError ty')
    (h : op.result? ty = some found) : op.result? ty' = some found := by
  cases op with
  | not | neg =>
    obtain ⟨hagrees, hfound⟩ := Option.ite_none_right_eq_some.1 h
    exact Option.ite_none_right_eq_some.2 ⟨hty.agrees (.refl _) hagrees, hfound⟩

/-- Operands of the error type are good for every operator. -/
theorem BinaryOp.result?_absorbs {op : BinaryOp} {left left' right right' found : Ty}
    (hleft : left.OrError left') (hright : right.OrError right')
    (h : op.result? left right = some found) : op.result? left' right' = some found := by
  unfold result? at h ⊢
  cases hfamily : op.family with
  | logical | relational | arithmetic =>
    simp only [hfamily, Option.ite_none_right_eq_some, Bool.and_eq_true] at h ⊢
    obtain ⟨⟨hagrees, hagrees'⟩, hfound⟩ := h
    exact ⟨⟨hleft.agrees (.refl _) hagrees, hright.agrees (.refl _) hagrees'⟩, hfound⟩
  | equality =>
    simp only [hfamily, Option.ite_none_right_eq_some, Bool.and_eq_true, Bool.not_eq_true'] at h ⊢
    obtain ⟨⟨⟨hvoid, hvoid'⟩, hagrees⟩, hfound⟩ := h
    exact ⟨⟨⟨hleft.not_isVoid hvoid, hright.not_isVoid hvoid'⟩, hleft.agrees hright hagrees⟩, hfound⟩

namespace Typing

variable {table : SymbolTable} {span span' : Span} {ty ty' expected left left' right right' found : Ty}

/-- If nothing is reported on a unary operator, then neither if its operand is a mistake. -/
theorem unary_absorbs {op : UnaryOp} (hty : ty.OrError ty') (h : unary op ty span = (found, [])) :
    unary op ty' span = (found, []) := by
  unfold unary at h ⊢
  cases hresult : op.result? ty with
  | none => simp [hresult] at h
  | some result =>
    rw [hresult] at h
    rw [UnaryOp.result?_absorbs hty hresult]
    exact h

/-- If nothing is reported on an operator, then neither if an operand is a mistake. -/
theorem binary_absorbs {op : BinaryOp} (hleft : left.OrError left') (hright : right.OrError right')
    (h : binary op left right span = (found, [])) : binary op left' right' span = (found, []) := by
  unfold binary at h ⊢
  cases hresult : op.result? left right with
  | none => simp [hresult] at h
  | some result =>
    rw [hresult] at h
    rw [BinaryOp.result?_absorbs hleft hright hresult]
    exact h

/-- A rule about one type says nothing exactly if that agrees with what is expected. -/
theorem unless_eq_nil_iff {agrees : Bool} {d : Diagnostic} :
    (if agrees then [] else [d]) = [] ↔ agrees = true := by
  cases agrees <;> simp

theorem required_absorbs {role : String} (hty : ty.OrError ty')
    (h : required table role expected ty span = []) : required table role expected ty' span' = [] :=
  unless_eq_nil_iff.2 (hty.agrees (.refl _) (unless_eq_nil_iff.1 h))

/-- With an alternative that is an error, a choice is one. -/
theorem ternary_absorbs (hleft : left.OrError left') (hright : right.OrError right')
    (h : ternary table left right span = (found, [])) :
    ∃ found', ternary table left' right' span = (found', []) ∧ found.OrError found' := by
  have hagrees : left.agrees right = true := by
    by_contra hne
    simp [ternary, hne] at h
  have hagrees' := hleft.agrees hright hagrees
  obtain rfl | rfl := hleft
  · obtain rfl | rfl := hright
    · exact ⟨found, h, .refl found⟩
    · refine ⟨.error, ?_, .inr rfl⟩
      unfold ternary
      rw [if_pos hagrees']
      cases left' <;> rfl
  · refine ⟨.error, ?_, .inr rfl⟩
    unfold ternary
    rw [if_pos hagrees']

/-- Arguments that fit their parameters still do when one of them is a mistake. -/
theorem arguments_absorbs {method : String} {args args' : List (Expr × Ty)}
    (hargs : List.Forall₂ (fun arg arg' => arg.2.OrError arg'.2) args args') {params : List SymbolId}
    {position : Nat} (h : arguments table method position params args = []) :
    arguments table method position params args' = [] := by
  induction hargs generalizing params position with
  | nil => cases params <;> rfl
  | @cons arg arg' _ _ harg _ ih =>
    cases params with
    | nil => rfl
    | cons param params =>
      unfold arguments at h ⊢
      dsimp only at h ⊢
      by_cases hagrees : (table.typeOf param).agrees arg.2 = true
      · rw [if_pos hagrees] at h
        rw [if_pos (Ty.OrError.agrees (.refl _) harg hagrees)]
        exact ih h
      · rw [if_neg hagrees] at h
        cases h

/-- If nothing is reported on a call, then neither if an argument is a mistake. -/
theorem call_absorbs {callee : Reference} {args args' : List (Expr × Ty)}
    (hargs : List.Forall₂ (fun arg arg' => arg.2.OrError arg'.2) args args')
    (h : call table callee args span = (found, [])) : call table callee args' span = (found, []) := by
  unfold call at h ⊢
  rw [← hargs.length_eq]
  split at h
  next method symbol hbound hget =>
    split at h
    next hmethod =>
      rw [if_pos hmethod]
      dsimp only at h ⊢
      split at h
      next hlength =>
        rw [if_pos hlength]
        obtain ⟨rfl, hnone⟩ := Prod.mk.inj h
        rw [arguments_absorbs hargs hnone]
      next => cases (Prod.mk.inj h).2
    next => cases (Prod.mk.inj h).2
  next => cases (Prod.mk.inj h).2

theorem initial_absorbs {name : String} (hty : ty.OrError ty')
    (h : initial table name expected ty span = []) : initial table name expected ty' span = [] :=
  unless_eq_nil_iff.2 (Ty.OrError.agrees (.refl _) hty (unless_eq_nil_iff.1 h))

/-- If nothing is reported on an assignment, then neither if its value is a mistake. -/
theorem assignment_absorbs {target : Reference} (hty : ty.OrError ty')
    (h : assignment table target expected ty span = []) :
    assignment table target expected ty' span = [] := by
  unfold assignment at h ⊢
  cases hwhat : unassignable? table target with
  | some what => simp [hwhat] at h
  | none =>
    rw [hwhat] at h
    exact unless_eq_nil_iff.2 (Ty.OrError.agrees (.refl _) hty (unless_eq_nil_iff.1 h))

theorem stored_absorbs (hty : ty.OrError ty') (h : stored table expected ty span = []) :
    stored table expected ty' span = [] :=
  unless_eq_nil_iff.2 (Ty.OrError.agrees (.refl _) hty (unless_eq_nil_iff.1 h))

/-- If nothing is reported on a result, then neither if it is a mistake. -/
theorem returned_absorbs (hty : ty.OrError ty') (h : returned table expected (some ty) span = []) :
    returned table expected (some ty') span = [] := by
  unfold returned at h ⊢
  dsimp only at h ⊢
  cases hvoid : expected.isVoid with
  | true => simp [hvoid] at h
  | false =>
    rw [hvoid] at h
    exact unless_eq_nil_iff.2 (Ty.OrError.agrees (.refl _) hty (unless_eq_nil_iff.1 h))

end Typing

/-- If the first part reports nothing, then the second one reports just this and has a result that
is related to that of the first. -/
structure Check.Absorbs {ν α : Type} (R : α → α → Prop) (part part' : Check ν α)
    (found : List Diagnostic) : Prop where
  oblivious : part.Oblivious
  absorbs : ∀ a, part.Gives a [] → ∃ a', R a a' ∧ part'.Gives a' found

namespace Check

variable {μ ν α β : Type} {R : α → α → Prop} {S : β → β → Prop} {part part' : Check ν α}
  {f f' : α → Check ν β} {found found' : List Diagnostic}

theorem Oblivious.absorbs (h : part.Oblivious) : Absorbs Eq part part [] :=
  ⟨h, fun a ha => ⟨a, rfl, ha⟩⟩

theorem absorbs_pure {a a' : α} (h : R a a') : Absorbs R (pure a : Check ν α) (pure a') [] where
  oblivious := oblivious_pure
  absorbs := by
    intro b hb
    obtain rfl := hb.of_pure
    exact ⟨a', h, gives_pure⟩

theorem absorbs_report (h : found = [] → found' = []) :
    Absorbs Eq (report found : Check ν Unit) (report found') [] where
  oblivious := oblivious_report
  absorbs := by
    rintro ⟨⟩ hgives
    exact ⟨(), rfl, gives_silence (h hgives.of_report)⟩

theorem absorbs_orAbort {node node' : ν} {result : Except Diagnostic α} :
    Absorbs Eq (orAbort node result) (orAbort node' result) [] := by
  cases result with
  | ok a => exact absorbs_pure rfl
  | error fatal => exact ⟨oblivious_abort, fun _ h => nomatch h []⟩

/-- Of two verdicts the second reports nothing if the first does not. -/
theorem absorbs_conclude {R : Ty → Ty → Prop} {verdict verdict' : Ty × List Diagnostic}
    (h : ∀ ty, verdict = (ty, []) → ∃ ty', verdict' = (ty', []) ∧ R ty ty') :
    Absorbs R (conclude verdict : Check ν Ty) (conclude verdict') [] where
  oblivious := oblivious_conclude
  absorbs := by
    intro ty hgives
    obtain ⟨ty', rfl, hR⟩ := h ty hgives.of_conclude
    exact ⟨ty', hR, gives_conclude⟩

theorem Absorbs.within {part part' : Check μ α} (h : Absorbs R part part' found)
    (rebuild rebuild' : μ → ν) : Absorbs R (within rebuild part) (within rebuild' part') found where
  oblivious := h.oblivious.within rebuild
  absorbs := by
    intro a ha
    obtain ⟨a', hR, ha'⟩ := h.absorbs a ha.of_within
    exact ⟨a', hR, ha'.within rebuild'⟩

/-- What the two parts of a sequence report adds up. -/
theorem Absorbs.bind (h : Absorbs R part part' found) (hrefl : ∀ a, R a a)
    (hf : ∀ a a', R a a' → Absorbs S (f a) (f' a') found') :
    Absorbs S (part >>= f) (part' >>= f') (found ++ found') where
  oblivious := h.oblivious.bind fun a => (hf a a (hrefl a)).oblivious
  absorbs := by
    intro b hb
    obtain ⟨a, hfirst, hrest⟩ := hb.of_bind h.oblivious fun a => (hf a a (hrefl a)).oblivious
    obtain ⟨a', hR, hfirst'⟩ := h.absorbs a hfirst
    obtain ⟨b', hS, hrest'⟩ := (hf a a' hR).absorbs b hrest
    exact ⟨b', hS, hfirst'.bind hrest'⟩

/-- What is found in the first part is all. -/
theorem Absorbs.first (h : Absorbs R part part' found) (hrefl : ∀ a, R a a)
    (hf : ∀ a a', R a a' → Absorbs S (f a) (f' a') []) :
    Absorbs S (part >>= f) (part' >>= f') found := by
  have hboth := h.bind hrefl hf
  rwa [List.append_nil] at hboth

/-- The first part finds nothing in either case. -/
theorem Absorbs.next (h : Absorbs Eq part part' [])
    (hf : ∀ a, Absorbs S (f a) (f' a) found) : Absorbs S (part >>= f) (part' >>= f') found :=
  h.bind (fun _ => rfl) fun a a' (heq : a = a') => heq ▸ hf a

end Check

/-- If the first part, started with such names and declarations, reports nothing, then the second
one reports just this and leaves the same names and declarations. -/
structure Walk.Absorbs {ν α : Type} (start : Bindings → Prop) (part part' : Walk ν α)
    (found : List Diagnostic) : Prop where
  oblivious : part.Oblivious
  absorbs : ∀ before a after, start before → part.Gives before a after [] →
    ∃ a', part'.Gives before a' after found

namespace Walk

variable {μ ν α β : Type} {start middle : Bindings → Prop} {part part' : Walk ν α}
  {f f' : α → Walk ν β} {found found' : List Diagnostic}

theorem Oblivious.absorbs (h : part.Oblivious) : Absorbs start part part [] :=
  ⟨h, fun _ a _ _ ha => ⟨a, ha⟩⟩

theorem absorbs_pure {a a' : α} : Absorbs start (pure a : Walk ν α) (pure a') [] where
  oblivious := oblivious_pure
  absorbs := by
    intro before b after _ hb
    obtain ⟨-, rfl⟩ := hb.of_pure
    exact ⟨a', gives_pure⟩

theorem absorbs_report (h : found = [] → found' = []) :
    Absorbs start (report found : Walk ν Unit) (report found') [] where
  oblivious := oblivious_report
  absorbs := by
    rintro before ⟨⟩ after _ hgives
    obtain ⟨hfound, rfl⟩ := hgives.of_report
    exact ⟨(), gives_lift (Check.gives_silence (h hfound))⟩

theorem Absorbs.within {part part' : Walk μ α} (h : Absorbs start part part' found)
    (rebuild rebuild' : μ → ν) :
    Absorbs start (within rebuild part) (within rebuild' part') found where
  oblivious := h.oblivious.within rebuild
  absorbs := by
    intro before a after hstart ha
    obtain ⟨a', ha'⟩ := h.absorbs before a after hstart ha.of_within
    exact ⟨a', ha'.within rebuild'⟩

/-- What is found in the first part is all. -/
theorem Absorbs.first (h : Absorbs start part part' found)
    (hf : ∀ a a', Absorbs (fun _ => True) (f a) (f' a') []) :
    Absorbs start (part >>= f) (part' >>= f') found where
  oblivious := h.oblivious.bind fun a => (hf a a).oblivious
  absorbs := by
    intro before b after hstart hb
    obtain ⟨a, mid, hfirst, hrest⟩ := hb.of_bind h.oblivious fun a => (hf a a).oblivious
    obtain ⟨a', hfirst'⟩ := h.absorbs before a mid hstart hfirst
    obtain ⟨b', hrest'⟩ := (hf a a').absorbs mid b after trivial hrest
    exact ⟨b', hfirst'.first hrest'⟩

theorem Absorbs.map (h : Absorbs start part part' found) (g g' : α → β) :
    Absorbs start (g <$> part) (g' <$> part') found := by
  rw [map_eq_pure_bind, map_eq_pure_bind]
  exact h.first fun _ _ => absorbs_pure

/-- The first part finds nothing in either case, and leaves the names and declarations that the
second one starts with. -/
theorem Absorbs.next (h : Absorbs start part part' [])
    (hmiddle : ∀ before a mid, start before → part.Gives before a mid [] → middle mid)
    (hf : ∀ a a', Absorbs middle (f a) (f' a') found) :
    Absorbs start (part >>= f) (part' >>= f') found where
  oblivious := h.oblivious.bind fun a => (hf a a).oblivious
  absorbs := by
    intro before b after hstart hb
    obtain ⟨a, mid, hfirst, hrest⟩ := hb.of_bind h.oblivious fun a => (hf a a).oblivious
    obtain ⟨a', hfirst'⟩ := h.absorbs before a mid hstart hfirst
    obtain ⟨b', hrest'⟩ := (hf a a').absorbs mid b after (hmiddle before a mid hstart hfirst) hrest
    exact ⟨b', hfirst'.next hrest'⟩

/-- The names and declarations in force are known. -/
theorem Absorbs.after_get {names : Bindings} {f f' : Bindings → Walk ν β}
    (hf : ∀ names, (f names).Oblivious) (h : Absorbs (· = names) (f names) (f' names) found) :
    Absorbs (· = names) (get >>= f) (get >>= f') found where
  oblivious := oblivious_get.bind hf
  absorbs := by
    rintro _ b after rfl hb
    exact h.absorbs _ b after rfl hb

end Walk

end SmallJava
