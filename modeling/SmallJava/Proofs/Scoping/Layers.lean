import SmallJava.Scope

namespace SmallJava

/-- The variables of one block by their names, the newest first. -/
abbrev Layer := List (String × SymbolId)

/-- The blocks around a point of a program, the innermost first. -/
abbrev Layers := List Layer

namespace Layers

/-- The innermost variable of a name, with the depth of the block that declares it. -/
def visible? : Layers → String → Option LocalEntry
  | [], _ => none
  | layer :: rest, name =>
    match layer.lookup name with
    | some x => some ⟨x, rest.length⟩
    | none => visible? rest name

/-- The innermost variable of a name. -/
def find? (layers : Layers) (name : String) : Option SymbolId := layers.findSome? (·.lookup name)

/-- The variables of these blocks that a block inside them hides. -/
def hiddenBy (outer : Layers) (layer : Layer) : List Shadowed :=
  layer.filterMap fun var => (outer.visible? var.1).map (⟨outer.length, var.1, ·⟩)

/-- All variables that are hidden, in the order in which the blocks around end. -/
def hidden : Layers → List Shadowed
  | [] => []
  | layer :: rest => hiddenBy rest layer ++ hidden rest

/-- Leaves the innermost block. The outermost one loses its variables but stays. -/
def pop : Layers → Layers
  | [] => []
  | [_] => [[]]
  | _ :: layer :: rest => layer :: rest

/-- Declares a variable in the innermost block. -/
def declare (name : String) (x : SymbolId) : Layers → Layers
  | [] => []
  | layer :: rest => ((name, x) :: layer) :: rest

/-- The entry that is visible under a name is that of the innermost symbol with the name. -/
theorem map_visible? (layers : Layers) (name : String) :
    (layers.visible? name).map (·.symbol) = layers.find? name := by
  induction layers with
  | nil => rfl
  | cons layer rest ih =>
    unfold visible? find?
    rw [List.findSome?_cons]
    cases layer.lookup name with
    | none => exact ih
    | some x => rfl

/-- A visible entry is from one of the layers. -/
theorem depth_visible? {layers : Layers} {name : String} {entry : LocalEntry}
    (hvisible : layers.visible? name = some entry) : entry.depth < layers.length := by
  induction layers with
  | nil => cases hvisible
  | cons layer rest ih =>
    unfold visible? at hvisible
    split at hvisible
    next =>
      cases hvisible
      exact Nat.lt_succ_self _
    next => exact Nat.lt_succ_of_lt (ih hvisible)

theorem of_mem_hiddenBy {outer : Layers} {layer : Layer} {found : Shadowed}
    (hmem : found ∈ outer.hiddenBy layer) :
    found.depth = outer.length ∧ outer.visible? found.name = some found.entry ∧
      ∃ x, (found.name, x) ∈ layer := by
  obtain ⟨⟨name, x⟩, hvar, hfound⟩ := List.mem_filterMap.1 hmem
  obtain ⟨entry, hentry, rfl⟩ := Option.map_eq_some_iff.1 hfound
  exact ⟨rfl, hentry, x, hvar⟩

/-- What is hidden is hidden by one of the layers. -/
theorem depth_hidden {layers : Layers} {found : Shadowed} (hmem : found ∈ layers.hidden) :
    found.depth < layers.length := by
  induction layers with
  | nil => cases hmem
  | cons layer rest ih =>
    obtain hmem | hmem := List.mem_append.1 hmem
    · rw [(of_mem_hiddenBy hmem).1]
      exact Nat.lt_succ_self _
    · exact Nat.lt_succ_of_lt (ih hmem)

end Layers

namespace Scope

variable {scope scope' : Scope} {layers : Layers} {layer : Layer}

/-- The scope stands for these blocks: it knows the innermost variable of each name, and what
    that variable hides. -/
structure Represents (scope : Scope) (layers : Layers) : Prop where
  depth : layers.length = scope.depth + 1
  locals : ∀ name, scope.locals.get? name = layers.visible? name
  shadowed : scope.shadowed = layers.hidden

theorem represents_enterMethod (scope : Scope) : scope.enterMethod.Represents [[]] where
  depth := rfl
  locals := fun _ => rfl
  shadowed := rfl

namespace Represents

theorem find? (h : scope.Represents layers) (name : String) :
    (scope.locals.get? name).map (·.symbol) = layers.find? name := by
  rw [h.locals, layers.map_visible?]

theorem push (h : scope.Represents layers) : scope.push.Represents ([] :: layers) where
  depth := congrArg (· + 1) h.depth
  locals := h.locals
  shadowed := h.shadowed

/-- Restoring hidden variables brings back those that are visible further out. -/
theorem get?_restore {shadowed : List Shadowed} {outer : String → Option LocalEntry}
    (houter : ∀ found ∈ shadowed, outer found.name = some found.entry)
    (locals : Dict String LocalEntry) (name : String) :
    (shadowed.foldl (fun locals found => locals.insert found.name found.entry) locals).get? name =
      if ∃ found ∈ shadowed, found.name = name then outer name else locals.get? name := by
  induction shadowed generalizing locals with
  | nil => simp
  | cons first rest ih =>
    rw [List.foldl_cons, ih fun found hmem => houter found (List.mem_cons_of_mem _ hmem),
      Dict.get?_insert]
    by_cases hrest : ∃ found ∈ rest, found.name = name
    · rw [if_pos hrest, if_pos (by simp [hrest])]
    · rw [if_neg hrest]
      by_cases hfirst : name = first.name
      · subst hfirst
        rw [if_pos rfl, if_pos (by simp), houter first List.mem_cons_self]
      · rw [if_neg hfirst, if_neg (by simpa [Ne.symm hfirst] using hrest)]

/-- The hidden variables of the innermost block come first. -/
theorem span_shadowed {rest : Layers} (h : scope.Represents (layer :: rest)) :
    scope.shadowed.takeWhile (·.depth == scope.depth) =
        rest.hiddenBy layer ∧
      scope.shadowed.dropWhile (·.depth == scope.depth) = rest.hidden := by
  have hdepth : rest.length = scope.depth := by simpa using h.depth
  have hown : ∀ found ∈ rest.hiddenBy layer, (found.depth == scope.depth) = true := by
    intro found hmem
    rw [(Layers.of_mem_hiddenBy hmem).1]
    simpa using hdepth
  have houter : ∀ found ∈ rest.hidden, (found.depth == scope.depth) = false := by
    intro found hmem
    have hlt := Layers.depth_hidden hmem
    simp only [beq_eq_false_iff_ne]
    omega
  rw [h.shadowed, Layers.hidden]
  constructor
  · rw [List.takeWhile_append_of_pos hown]
    cases hrest : rest.hidden with
    | nil => simp
    | cons found more =>
      rw [List.takeWhile_cons_of_neg (by simp [houter found (by simp [hrest])]), List.append_nil]
  · rw [List.dropWhile_append_of_pos hown]
    cases hrest : rest.hidden with
    | nil => rfl
    | cons found more =>
      rw [List.dropWhile_cons_of_neg (by simp [houter found (by simp [hrest])])]

/-- At the end of a block its own variables go and the ones they hide come back. -/
theorem locals_pop {rest : Layers} (h : scope.Represents (layer :: rest)) (name : String) :
    scope.pop.locals.get? name = rest.visible? name := by
  have hdepth : rest.length = scope.depth := by simpa using h.depth
  unfold Scope.pop
  dsimp only
  rw [(h.span_shadowed).1, get?_restore fun found hmem => (Layers.of_mem_hiddenBy hmem).2.1,
    Dict.get?_filter, h.locals, Layers.visible?]
  cases hown : layer.lookup name with
  | none =>
    have hnone : ¬∃ found ∈ rest.hiddenBy layer, found.name = name := by
      rintro ⟨found, hmem, rfl⟩
      obtain ⟨x, hvar⟩ := (Layers.of_mem_hiddenBy hmem).2.2
      simpa using List.lookup_eq_none_iff.1 hown _ hvar
    rw [if_neg hnone]
    dsimp only
    cases hvisible : rest.visible? name with
    | none => rfl
    | some entry =>
      have hlt := Layers.depth_visible? hvisible
      exact Option.filter_some_pos (by simpa [hdepth] using hlt)
  | some x =>
    have hfilter : Option.filter (fun entry : LocalEntry => decide (entry.depth < scope.depth))
        (some ⟨x, rest.length⟩) = none := by
      simp [hdepth]
    rw [hfilter]
    split
    next => rfl
    next hhidden =>
    cases hvisible : rest.visible? name with
    | none => rfl
    | some entry =>
      refine absurd ⟨⟨rest.length, name, entry⟩, List.mem_filterMap.2 ⟨(name, x), ?_, ?_⟩, rfl⟩ hhidden
      · obtain ⟨before, after, rfl, -⟩ := List.lookup_eq_some_iff.1 hown
        simp
      · rw [hvisible]
        rfl

/-- The end of a block leaves the blocks around it, or an empty one. -/
theorem pop (h : scope.Represents layers) : scope.pop.Represents layers.pop := by
  cases layers with
  | nil => cases h.depth
  | cons layer rest =>
    have hdepth : rest.length = scope.depth := by simpa using h.depth
    have hlocals := h.locals_pop
    have hshadowed : scope.pop.shadowed = Layers.hidden rest := h.span_shadowed.2
    cases rest with
    | nil => exact ⟨by simp [Layers.pop, Scope.pop, ← hdepth], hlocals, hshadowed⟩
    | cons outer rest =>
      refine ⟨?_, hlocals, hshadowed⟩
      change (outer :: rest).length = scope.depth - 1 + 1
      have hpos : (outer :: rest).length = rest.length + 1 := rfl
      omega

/-- A declaration fails exactly if the innermost block has the name already. Otherwise it
    adds the variable to that block. -/
theorem declareLocal {rest : Layers} (h : scope.Represents (layer :: rest)) (name : String)
    (x : SymbolId) (span : Span) :
    match layer.lookup name with
    | some _ => scope.declareLocal name x span = .error (.duplicateVariable name span)
    | none => ∃ scope', scope.declareLocal name x span = .ok scope' ∧
        scope'.Represents (((name, x) :: layer) :: rest) := by
  have hdepth : rest.length = scope.depth := by simpa using h.depth
  have hget := h.locals name
  rw [Layers.visible?] at hget
  unfold Scope.declareLocal
  have hvisible : ∀ other, (scope.locals.insert name ⟨x, scope.depth⟩).get? other =
      Layers.visible? (((name, x) :: layer) :: rest) other := by
    intro other
    rw [Dict.get?_insert, Layers.visible?, List.lookup_cons]
    by_cases heq : other = name
    · simp [heq, hdepth]
    · rw [if_neg heq, h.locals, Layers.visible?, beq_false_of_ne heq]
  cases hlookup : layer.lookup name with
  | some y =>
    rw [hlookup] at hget
    simp [hget, hdepth]
  | none =>
    rw [hlookup] at hget
    dsimp only at hget
    dsimp only
    rw [hget]
    cases hrest : rest.visible? name with
    | none =>
      refine ⟨_, rfl, by simpa using hdepth, hvisible, ?_⟩
      rw [h.shadowed]
      simp [Layers.hidden, Layers.hiddenBy, hrest]
    | some entry =>
      have hne : entry.depth ≠ scope.depth := by
        have hlt := Layers.depth_visible? hrest
        omega
      refine ⟨_, if_neg hne, by simpa using hdepth, hvisible, ?_⟩
      rw [h.shadowed]
      simp [Layers.hidden, Layers.hiddenBy, hrest, hdepth]

end Represents

end Scope

end SmallJava
