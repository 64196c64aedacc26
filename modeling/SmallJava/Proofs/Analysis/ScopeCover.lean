import SmallJava.Scope

namespace SmallJava

namespace Scope

/-- Every variable that is in force or hidden is one of its block. The variables up
    to a depth include those of all outer blocks. -/
structure Covered (scope : Scope) (vars : Nat → List SymbolId) : Prop where
  locals : ∀ name entry, scope.locals.get? name = some entry →
    entry.depth ≤ scope.depth ∧ entry.symbol ∈ vars entry.depth
  shadowed : ∀ hidden ∈ scope.shadowed, hidden.entry.depth < hidden.depth ∧
    hidden.depth ≤ scope.depth ∧ hidden.entry.symbol ∈ vars hidden.entry.depth
  sorted : scope.shadowed.Pairwise fun inner outer => outer.depth ≤ inner.depth
  mono : ∀ outer inner, outer ≤ inner → inner ≤ scope.depth → vars outer ⊆ vars inner

/-- A declaration brings one variable into force and leaves the rest as it is. -/
theorem declareLocal_eq {scope scope' : Scope} {name : String} {x : SymbolId} {span : Span}
    (hdeclare : scope.declareLocal name x span = .ok scope') :
    scope'.depth = scope.depth ∧ scope'.classes = scope.classes ∧
      scope'.members = scope.members ∧
      scope'.locals = scope.locals.insert name ⟨x, scope.depth⟩ := by
  unfold declareLocal at hdeclare
  dsimp only at hdeclare
  split at hdeclare
  next =>
    obtain rfl := Except.ok.inj hdeclare
    exact ⟨rfl, rfl, rfl, rfl⟩
  next =>
    split at hdeclare
    next => cases hdeclare
    next =>
    obtain rfl := Except.ok.inj hdeclare
    exact ⟨rfl, rfl, rfl, rfl⟩

/-- The variables with those of one depth replaced. -/
def extend (vars : Nat → List SymbolId) (depth : Nat) (found : List SymbolId) :
    Nat → List SymbolId :=
  fun d => if d = depth then found else vars d

@[simp]
theorem extend_self (vars : Nat → List SymbolId) (depth : Nat) (found : List SymbolId) :
    extend vars depth found depth = found := if_pos rfl

theorem extend_of_ne {vars : Nat → List SymbolId} {depth d : Nat} {found : List SymbolId}
    (hne : d ≠ depth) : extend vars depth found d = vars d := if_neg hne

@[simp]
theorem extend_eq (vars : Nat → List SymbolId) (depth : Nat) :
    extend vars depth (vars depth) = vars := by
  funext d
  unfold extend
  split
  next heq => rw [heq]
  next => rfl

namespace Covered

variable {scope scope' : Scope} {vars vars' : Nat → List SymbolId}

/-- Only the variables down to the current depth matter. -/
theorem congr (hcovered : scope.Covered vars) (hsame : ∀ d ≤ scope.depth, vars' d = vars d) :
    scope.Covered vars' where
  locals := by
    intro name entry hget
    obtain ⟨hdepth, hmem⟩ := hcovered.locals name entry hget
    rw [hsame _ hdepth]
    exact ⟨hdepth, hmem⟩
  shadowed := by
    intro hidden hmem
    obtain ⟨hlt, hle, hsymbol⟩ := hcovered.shadowed hidden hmem
    rw [hsame _ (by omega)]
    exact ⟨hlt, hle, hsymbol⟩
  sorted := hcovered.sorted
  mono := by
    intro outer inner hle hdepth
    rw [hsame _ hdepth, hsame _ (Nat.le_trans hle hdepth)]
    exact hcovered.mono outer inner hle hdepth

theorem mem_of_get? (hcovered : scope.Covered vars) {name : String} {entry : LocalEntry}
    (hget : scope.locals.get? name = some entry) : entry.symbol ∈ vars scope.depth := by
  obtain ⟨hdepth, hmem⟩ := hcovered.locals name entry hget
  exact hcovered.mono _ _ hdepth (Nat.le_refl _) hmem

/-- A new block sees the variables of the block around it. -/
theorem push (hcovered : scope.Covered vars) :
    scope.push.Covered (extend vars (scope.depth + 1) (vars scope.depth)) := by
  have hsame : ∀ d ≤ scope.depth,
      extend vars (scope.depth + 1) (vars scope.depth) d = vars d :=
    fun d hle => extend_of_ne (by omega)
  refine ⟨?_, ?_, hcovered.sorted, ?_⟩
  · intro name entry hget
    obtain ⟨hdepth, hmem⟩ := hcovered.locals name entry hget
    rw [hsame _ hdepth]
    exact ⟨Nat.le_succ_of_le hdepth, hmem⟩
  · intro hidden hmem
    obtain ⟨hlt, hle, hsymbol⟩ := hcovered.shadowed hidden hmem
    rw [hsame _ (by omega)]
    exact ⟨hlt, Nat.le_succ_of_le hle, hsymbol⟩
  · intro outer inner hle hdepth
    have hdepth : inner ≤ scope.depth + 1 := hdepth
    obtain rfl | hinner := Nat.eq_or_lt_of_le hdepth
    · rw [extend_self]
      obtain rfl | houter := Nat.eq_or_lt_of_le hle
      · rw [extend_self]
        exact List.Subset.refl _
      · rw [hsame outer (by omega)]
        exact hcovered.mono _ _ (by omega) (Nat.le_refl _)
    · rw [hsame inner (by omega), hsame outer (by omega)]
      exact hcovered.mono _ _ hle (by omega)

/-- A declared variable is one of the current block. -/
theorem declare (hcovered : scope.Covered vars) {name : String} {x : SymbolId} {span : Span}
    (hdeclare : scope.declareLocal name x span = .ok scope') :
    scope'.Covered (extend vars scope.depth (vars scope.depth ++ [x])) := by
  have hlocals : ∀ other entry,
      (scope.locals.insert name ⟨x, scope.depth⟩).get? other = some entry →
        entry.depth ≤ scope.depth ∧
          entry.symbol ∈ extend vars scope.depth (vars scope.depth ++ [x]) entry.depth := by
    intro other entry hget
    rw [Dict.get?_insert] at hget
    split at hget
    next =>
      obtain rfl := Option.some.inj hget
      simp
    next =>
      obtain ⟨hdepth, hmem⟩ := hcovered.locals other entry hget
      refine ⟨hdepth, ?_⟩
      unfold extend
      split
      next heq =>
        rw [heq] at hmem
        exact List.mem_append_left _ hmem
      next => exact hmem
  have hmono : ∀ outer inner, outer ≤ inner → inner ≤ scope.depth →
      extend vars scope.depth (vars scope.depth ++ [x]) outer ⊆
        extend vars scope.depth (vars scope.depth ++ [x]) inner := by
    intro outer inner hle hdepth
    obtain rfl | hinner := Nat.eq_or_lt_of_le hdepth
    · obtain rfl | houter := Nat.eq_or_lt_of_le hle
      · exact List.Subset.refl _
      · rw [extend_self, extend_of_ne (by omega)]
        exact List.subset_append_of_subset_left _ (hcovered.mono _ _ hle hdepth)
    · rw [extend_of_ne (by omega), extend_of_ne (by omega)]
      exact hcovered.mono _ _ hle hdepth
  have hshadowed : ∀ hidden ∈ scope.shadowed, hidden.entry.depth < hidden.depth ∧
      hidden.depth ≤ scope.depth ∧
        hidden.entry.symbol ∈
          extend vars scope.depth (vars scope.depth ++ [x]) hidden.entry.depth := by
    intro hidden hmem
    obtain ⟨hlt, hle, hsymbol⟩ := hcovered.shadowed hidden hmem
    rw [extend_of_ne (by omega)]
    exact ⟨hlt, hle, hsymbol⟩
  unfold declareLocal at hdeclare
  dsimp only at hdeclare
  split at hdeclare
  next =>
    obtain rfl := Except.ok.inj hdeclare
    exact ⟨hlocals, hshadowed, hcovered.sorted, hmono⟩
  next entry hget =>
    split at hdeclare
    next => cases hdeclare
    next hne =>
    obtain rfl := Except.ok.inj hdeclare
    obtain ⟨hdepth, hmem⟩ := hcovered.locals name entry hget
    refine ⟨hlocals, ?_, ?_, hmono⟩
    · intro hidden hin
      obtain rfl | hin := List.mem_cons.1 hin
      · refine ⟨by dsimp only; omega, Nat.le_refl _, ?_⟩
        rw [extend_of_ne hne]
        exact hmem
      · exact hshadowed hidden hin
    · refine List.pairwise_cons.2 ⟨?_, hcovered.sorted⟩
      intro hidden hin
      exact (hcovered.shadowed hidden hin).2.1

end Covered

/-- A restored variable was hidden or was in force all along. -/
theorem mem_of_get?_restore {hidden : List Shadowed} {locals : Dict String LocalEntry}
    {name : String} {entry : LocalEntry}
    (hget : (hidden.foldl (fun locals hidden => locals.insert hidden.name hidden.entry)
      locals).get? name = some entry) :
    (∃ found ∈ hidden, found.entry = entry) ∨ locals.get? name = some entry := by
  induction hidden generalizing locals with
  | nil => exact .inr hget
  | cons first rest ih =>
    obtain ⟨found, hmem, hentry⟩ | hbefore := ih hget
    · exact .inl ⟨found, List.mem_cons_of_mem _ hmem, hentry⟩
    · rw [Dict.get?_insert] at hbefore
      split at hbefore
      next => exact .inl ⟨first, List.mem_cons_self, Option.some.inj hbefore⟩
      next => exact .inr hbefore

/-- After the innermost hidden variables, all hidden variables belong to outer blocks. -/
private theorem depth_lt_of_mem_dropWhile {shadowed : List Shadowed} {depth : Nat}
    (hbound : ∀ hidden ∈ shadowed, hidden.depth ≤ depth)
    (hsorted : shadowed.Pairwise fun inner outer => outer.depth ≤ inner.depth) {hidden : Shadowed}
    (hmem : hidden ∈ shadowed.dropWhile (·.depth == depth)) : hidden.depth < depth := by
  induction shadowed with
  | nil => cases hmem
  | cons first rest ih =>
    obtain ⟨hfirst, hsorted⟩ := List.pairwise_cons.1 hsorted
    have hle := hbound first List.mem_cons_self
    by_cases heq : first.depth = depth
    · rw [List.dropWhile_cons_of_pos (by simpa using heq)] at hmem
      exact ih (fun other hin => hbound other (List.mem_cons_of_mem _ hin)) hsorted hmem
    · rw [List.dropWhile_cons_of_neg (by simpa using heq)] at hmem
      obtain rfl | hin := List.mem_cons.1 hmem
      · omega
      · have := hfirst hidden hin
        omega

/-- The end of a block leaves the variables of the block around it. -/
theorem Covered.pop {scope : Scope} {vars : Nat → List SymbolId} (hcovered : scope.Covered vars)
    (hdepth : 0 < scope.depth) : scope.pop.Covered vars := by
  have hdrop : ∀ hidden ∈ scope.shadowed.dropWhile (·.depth == scope.depth),
      hidden.depth < scope.depth := fun hidden hmem =>
    depth_lt_of_mem_dropWhile (fun other hin => (hcovered.shadowed other hin).2.1) hcovered.sorted hmem
  refine ⟨?_, ?_, hcovered.sorted.sublist (List.dropWhile_sublist _), ?_⟩
  · intro name entry hget
    obtain ⟨found, hmem, rfl⟩ | hkept := mem_of_get?_restore hget
    · obtain ⟨hlt, hle, hsymbol⟩ :=
        hcovered.shadowed found ((List.takeWhile_sublist _).subset hmem)
      refine ⟨?_, hsymbol⟩
      change found.entry.depth ≤ scope.depth - 1
      omega
    · rw [Dict.get?_filter] at hkept
      obtain ⟨hget, hlt⟩ := Option.filter_eq_some_iff.1 hkept
      refine ⟨?_, (hcovered.locals name entry hget).2⟩
      have hlt : entry.depth < scope.depth := by simpa using hlt
      change entry.depth ≤ scope.depth - 1
      omega
  · intro hidden hmem
    obtain ⟨hlt, -, hsymbol⟩ :=
      hcovered.shadowed hidden ((List.dropWhile_sublist _).subset hmem)
    refine ⟨hlt, ?_, hsymbol⟩
    have := hdrop hidden hmem
    change hidden.depth ≤ scope.depth - 1
    omega
  · intro outer inner hle hinner
    have hinner : inner ≤ scope.depth - 1 := hinner
    exact hcovered.mono outer inner hle (by omega)

end Scope

end SmallJava
