import SmallJava.Proofs.Scoping.Refinement

namespace SmallJava

namespace Dict

variable {κ ν μ : Type}

/-- Replaces the values. -/
def mapValues (dict : Dict κ ν) (f : ν → μ) : Dict κ μ where
  entries := dict.entries.map fun entry => (entry.1, f entry.2)
  nodup_keys := by
    rw [List.map_map]
    exact dict.nodup_keys

theorem mapValues_filter {dict : Dict κ ν} {f : ν → μ} {keep : κ → ν → Bool} {keep' : κ → μ → Bool}
    (hkeep : ∀ key value, keep' key (f value) = keep key value) :
    (dict.filter keep).mapValues f = (dict.mapValues f).filter keep' := by
  simp [mapValues, filter, List.filter_map, Function.comp_def, hkeep]

variable [DecidableEq κ]

theorem get?_mapValues (dict : Dict κ ν) (f : ν → μ) (key : κ) :
    (dict.mapValues f).get? key = (dict.get? key).map f := by
  simp [mapValues, get?, List.find?_map, Function.comp_def]

theorem mapValues_insert (dict : Dict κ ν) (f : ν → μ) (key : κ) (value : ν) :
    (dict.insert key value).mapValues f = (dict.mapValues f).insert key (f value) := by
  have herase : (dict.erase key).mapValues f = (dict.mapValues f).erase key :=
    mapValues_filter fun _ _ => rfl
  have hentries := congrArg entries herase
  simp only [mapValues, insert] at hentries ⊢
  simp [hentries]

end Dict

/-- The entry of a scope that counts without bound. -/
def LocalEntry.unbounded (entry : LocalEntry UInt32) : LocalEntry := ⟨entry.symbol, entry.depth.toNat⟩

/-- The hidden variable of a scope that counts without bound. -/
def Shadowed.unbounded (found : Shadowed UInt32) : Shadowed :=
  ⟨found.depth.toNat, found.name, found.entry.unbounded⟩

namespace Scope

/-- The same names, with depths counted without bound. -/
def unbounded (scope : Scope UInt32) : Scope where
  classes := scope.classes
  members := scope.members
  locals := scope.locals.mapValues (·.unbounded)
  depth := scope.depth.toNat
  shadowed := scope.shadowed.map (·.unbounded)

variable (scope : Scope UInt32)

/-- What a name means does not depend on how depths are counted. -/
theorem lookup_unbounded (name : String) : scope.unbounded.lookup name = scope.lookup name := by
  unfold lookup unbounded
  rw [Dict.get?_mapValues]
  cases scope.locals.get? name with
  | some entry => rfl
  | none => rfl

theorem unbounded_enterMethod : scope.enterMethod.unbounded = scope.unbounded.enterMethod := rfl

theorem unbounded_enterClass (members : Dict String SymbolId) :
    (scope.enterClass members).unbounded = scope.unbounded.enterClass members := rfl

/-- A class is added or rejected alike. -/
theorem declareClass?_unbounded (name : String) (x : SymbolId) :
    scope.unbounded.declareClass? name x =
      (scope.declareClass? name x).map (·.unbounded) := by
  unfold declareClass? unbounded
  dsimp only
  split <;> rfl

variable {scope}

/-- As long as it fits into a word, the depth of a new block is counted alike. -/
theorem unbounded_push (hfits : scope.depth.toNat + 1 < UInt32.size) :
    scope.push.unbounded = scope.unbounded.push := by
  have hdepth : (scope.depth + 1).toNat = scope.depth.toNat + 1 := by
    rw [UInt32.toNat_add, UInt32.toNat_one]
    exact Nat.mod_eq_of_lt hfits
  unfold push unbounded
  exact congrArg (fun depth => Scope.mk _ _ _ depth _) hdepth

/-- The depth around a block is counted alike. -/
theorem toNat_leave (depth : UInt32) : (Depth.leave depth).toNat = Depth.leave depth.toNat := by
  change (if depth = 0 then 0 else depth - 1).toNat = depth.toNat - 1
  by_cases hzero : depth = 0
  · rw [if_pos hzero, hzero]
    rfl
  · have hpos : 1 ≤ depth.toNat := Nat.one_le_iff_ne_zero.2 fun heq => hzero (UInt32.toNat_inj.1 heq)
    have hle : 1 ≤ depth := UInt32.le_iff_toNat_le.2 hpos
    rw [if_neg hzero, UInt32.toNat_sub_of_le depth 1 hle, UInt32.toNat_one]

/-- Two depths are equal if the numbers are. -/
theorem toNat_beq (d depth : UInt32) : (d.toNat == depth.toNat) = (d == depth) := by
  rw [Bool.eq_iff_iff, beq_iff_eq, beq_iff_eq]
  exact UInt32.toNat_inj

/-- The same variables come back, in the same order. -/
theorem restore_unbounded (found : List (Shadowed UInt32)) (locals : Dict String (LocalEntry UInt32)) :
    (found.foldl (fun locals hidden => locals.insert hidden.name hidden.entry) locals).mapValues
        (·.unbounded) =
      (found.map (·.unbounded)).foldl (fun locals hidden => locals.insert hidden.name hidden.entry)
        (locals.mapValues (·.unbounded)) := by
  induction found generalizing locals with
  | nil => rfl
  | cons first rest ih =>
    rw [List.foldl_cons, ih, List.map_cons, List.foldl_cons, Dict.mapValues_insert]
    rfl

/-- The end of a block leaves the same variables. -/
theorem unbounded_pop : scope.pop.unbounded = scope.unbounded.pop := by
  have hown : ∀ found : Shadowed UInt32,
      (found.unbounded.depth == scope.unbounded.depth) = (found.depth == scope.depth) :=
    fun found => toNat_beq found.depth scope.depth
  have hlocals : (scope.locals.filter fun _ entry => decide (entry.depth < scope.depth)).mapValues
      (·.unbounded) = scope.unbounded.locals.filter fun _ entry =>
        decide (entry.depth < scope.unbounded.depth) :=
    Dict.mapValues_filter fun _ entry => decide_eq_decide.2 UInt32.lt_iff_toNat_lt.symm
  have htaken : (scope.shadowed.takeWhile (·.depth == scope.depth)).map (·.unbounded) =
      scope.unbounded.shadowed.takeWhile (·.depth == scope.unbounded.depth) := by
    change _ = (scope.shadowed.map (·.unbounded)).takeWhile _
    rw [List.takeWhile_map]
    simp only [Function.comp_def, hown]
  have hleft : (scope.shadowed.dropWhile (·.depth == scope.depth)).map (·.unbounded) =
      scope.unbounded.shadowed.dropWhile (·.depth == scope.unbounded.depth) := by
    change _ = (scope.shadowed.map (·.unbounded)).dropWhile _
    rw [List.dropWhile_map]
    simp only [Function.comp_def, hown]
  have hdepth : (Depth.leave scope.depth).toNat = Depth.leave scope.unbounded.depth :=
    toNat_leave scope.depth
  unfold pop
  rw [← hlocals, ← htaken, ← hleft, ← hdepth, ← restore_unbounded]
  rfl

/-- A variable is declared or rejected alike. -/
theorem declareLocal_unbounded (name : String) (x : SymbolId) (span : Span) :
    scope.unbounded.declareLocal name x span =
      (scope.declareLocal name x span).map (·.unbounded) := by
  have hget : scope.unbounded.locals.get? name =
      (scope.locals.get? name).map (·.unbounded) := Dict.get?_mapValues ..
  have hinsert : scope.unbounded.locals.insert name ⟨x, scope.unbounded.depth⟩ =
      (scope.locals.insert name ⟨x, scope.depth⟩).mapValues (·.unbounded) :=
    (Dict.mapValues_insert scope.locals (·.unbounded) name ⟨x, scope.depth⟩).symm
  unfold declareLocal
  rw [hget, hinsert]
  cases scope.locals.get? name with
  | none => rfl
  | some entry =>
    have hsame : entry.unbounded.depth = scope.unbounded.depth ↔ entry.depth = scope.depth :=
      UInt32.toNat_inj
    simp only [Option.map_some, hsame]
    split <;> rfl

/-- An operation is answered alike and leaves the same names, as long as the depth fits into a
    word. -/
theorem step_unbounded (op : ScopeOp) (hfits : (scope.unbounded.step op).2.depth < UInt32.size) :
    (scope.step op).1 = (scope.unbounded.step op).1 ∧
      (scope.step op).2.unbounded = (scope.unbounded.step op).2 := by
  cases op with
  | declareClass name x =>
    simp only [step, declareClass?_unbounded]
    cases scope.declareClass? name x <;> exact ⟨rfl, rfl⟩
  | enterClass members => exact ⟨rfl, scope.unbounded_enterClass members⟩
  | enterMethod => exact ⟨rfl, scope.unbounded_enterMethod⟩
  | push => exact ⟨rfl, unbounded_push hfits⟩
  | pop => exact ⟨rfl, unbounded_pop⟩
  | declareLocal name x span =>
    simp only [step, declareLocal_unbounded]
    cases scope.declareLocal name x span <;> exact ⟨rfl, rfl⟩

/-- What can be asked of a scope is answered as by the stack. -/
structure Agrees (scope : Scope UInt32) (stack : NameStack) : Prop where
  depth : scope.depth.toNat = stack.depth
  lookup : ∀ name, scope.lookup name = stack.lookup name
  classes : ∀ name, scope.class? name = stack.class? name

theorem Refines.agrees {stack : NameStack} (h : scope.unbounded.Refines stack) :
    scope.Agrees stack where
  depth := h.depth
  lookup := fun name => (scope.lookup_unbounded name).symm.trans (h.lookup name)
  classes := h.classes

/-- As long as the stack has no more layers than a word can count, any operations in a row are
    answered as by the stack, and the names stay those of the stack. -/
theorem Refines.run {stack : NameStack} (h : scope.unbounded.Refines stack) (ops : List ScopeOp)
    (hfits : ∀ before, before <+: ops →
      (ScopeOp.run NameStack.step stack before).2.depth < UInt32.size) :
    (ScopeOp.run Scope.step scope ops).1 = (ScopeOp.run NameStack.step stack ops).1 ∧
      (ScopeOp.run Scope.step scope ops).2.unbounded.Refines (ScopeOp.run NameStack.step stack ops).2 := by
  induction ops generalizing scope stack with
  | nil => exact ⟨rfl, h⟩
  | cons op ops ih =>
    obtain ⟨hanswer, hnext⟩ := h.step op
    have hdepth : (scope.unbounded.step op).2.depth < UInt32.size := by
      rw [hnext.depth]
      exact hfits [op] ((List.prefix_cons_inj op).2 ops.nil_prefix)
    obtain ⟨hword, hunbounded⟩ := step_unbounded op hdepth
    rw [← hunbounded] at hnext
    obtain ⟨hanswers, hrefines⟩ := ih hnext fun before hbefore =>
      hfits (op :: before) ((List.prefix_cons_inj op).2 hbefore)
    exact ⟨List.cons_eq_cons.2 ⟨hword.trans hanswer, hanswers⟩, hrefines⟩

end Scope

/-- Done from the start on, each of the operations is answered as by the stack of maps, and so is
    each question asked then. -/
def ScopeOp.AnsweredAlike (ops : List ScopeOp) : Prop :=
  (run Scope.step ({} : Scope UInt32) ops).1 = (run NameStack.step {} ops).1 ∧
    (run Scope.step ({} : Scope UInt32) ops).2.Agrees (run NameStack.step {} ops).2

/-- Blocks that are only entered are all layers of the stack. -/
theorem NameStack.depth_run_push (stack : NameStack) (n : Nat) :
    (ScopeOp.run step stack (List.replicate n .push)).2.depth = stack.depth + n := by
  induction n generalizing stack with
  | zero => rfl
  | succ n ih =>
    have hnext : (stack.step .push).2.depth = stack.depth + 1 := rfl
    rw [List.replicate_succ]
    change (ScopeOp.run step (stack.step .push).2 (List.replicate n .push)).2.depth = _
    rw [ih, hnext]
    omega

namespace Scope

/-- Counting depths in words and saving hidden variables gives the answers of a stack of maps:
    whatever is done from the start on, each operation and each question after it is answered
    alike, exactly as long as the stack never has more layers than there are words to count the
    depth. -/
theorem answeredAlike_iff (ops : List ScopeOp) :
    (∀ before, before <+: ops → ScopeOp.AnsweredAlike before) ↔
      ∀ before, before <+: ops → (ScopeOp.run NameStack.step {} before).2.depth < UInt32.size := by
  constructor
  · intro halike before hbefore
    rw [← (halike before hbefore).2.depth]
    exact UInt32.toNat_lt_size _
  · intro hfits before hbefore
    have hinitial : (unbounded {}).Refines {} := Refines.initial
    obtain ⟨hanswers, hrefines⟩ := hinitial.run before fun first hfirst =>
      hfits first (hfirst.trans hbefore)
    exact ⟨hanswers, hrefines.agrees⟩

/-- Blocks that are only entered count up and wrap around. -/
theorem depth_run_push (scope : Scope UInt32) (n : Nat) :
    (ScopeOp.run Scope.step scope (List.replicate n .push)).2.depth = scope.depth + .ofNat n := by
  induction n generalizing scope with
  | zero => exact (UInt32.add_zero _).symm
  | succ n ih =>
    rw [List.replicate_succ]
    change (ScopeOp.run Scope.step scope.push (List.replicate n .push)).2.depth = _
    rw [ih, UInt32.ofNat_add, UInt32.add_comm (.ofNat n), ← UInt32.add_assoc]
    rfl

/-- After 4294967296 blocks were entered, the scope takes the innermost one for the top level. -/
theorem not_answeredAlike_push : ¬ ScopeOp.AnsweredAlike (List.replicate 4294967296 .push) := by
  rintro ⟨-, hagrees⟩
  have hdepth := hagrees.depth
  rw [depth_run_push, NameStack.depth_run_push] at hdepth
  exact absurd hdepth (by decide)

end Scope

end SmallJava
