import SmallJava.Proofs.Declaration.InStep

/-! A symbol table is made by what was asked of it: its lists and slots are read off the history. -/

namespace SmallJava

namespace SymbolTable

open TableOp

variable {table after : SymbolTable} {history : History} {entry : TableOp × Answer}
  {x cls : SymbolId} {name : String} {kind : SymbolKind} {ty : Ty} {span : Span}

/-- The lists of one sort of members hold those that have been added, in the order in which they
were. What is no class has none. -/
def ListsAdded (table : SymbolTable) (history : History) (list : ClassInfo → List SymbolId)
    (sort : SymbolKind → Bool) : Prop :=
  ∀ cls, (table.classInfo? cls).elim [] list = history.membersOf cls sort

namespace ListsAdded

variable {list : ClassInfo → List SymbolId} {sort : SymbolKind → Bool}

theorem congr (h : table.ListsAdded history list sort)
    (hclasses : ∀ c, after.classInfo? c = table.classInfo? c) :
    after.ListsAdded history list sort := by
  intro c
  rw [hclasses]
  exact h c

theorem note (h : table.ListsAdded history list sort) (hentry : ∀ c, entered? c sort entry = none) :
    table.ListsAdded (history ++ [entry]) list sort := by
  intro c
  rw [History.membersOf_append, hentry, Option.toList_none, List.append_nil]
  exact h c

/-- A symbol that is only added is on no list yet, and a new class has no lists to begin with. -/
theorem add (h : table.ListsAdded history list sort) (hlist : list {} = [])
    (hempty : kind.isClass = true → kind = .cls {}) :
    (table.add name kind ty span).ListsAdded history list sort := by
  intro c
  rw [classInfo?_add, ← h c]
  split
  next hnew =>
    have hnone : table.classInfo? table.nextId = none := by
      unfold classInfo?
      rw [kind?_nextId, Option.bind_none]
    rw [hnew, hnone]
    cases hclass : kind.class? with
    | none => rfl
    | some info =>
      obtain rfl := hempty (Option.isSome_of_eq_some hclass)
      obtain rfl := Option.some.inj hclass
      exact hlist
  next => rfl

/-- Entering a member appends it to the lists of its sort, as the history says. -/
theorem withMember (h : table.ListsAdded history list sort) {info : ClassInfo}
    (hcls : table.classInfo? cls = some info)
    (hlist : list (info.withMember name kind x) = if sort kind then list info ++ [x] else list info) :
    (table.modify cls (·.withMember name kind x)).ListsAdded
      (history ++ [(.addMember cls name kind ty span, .added x)]) list sort := by
  intro c
  rw [History.membersOf_append, ← h c, classInfo?_modify_withMember hcls]
  by_cases heq : c = cls
  · subst heq
    rw [if_pos rfl, hcls, Option.elim_some, Option.elim_some, hlist]
    cases hsort : sort kind <;> simp [entered?, hsort]
  · simp [entered?, heq, Ne.symm heq]

end ListsAdded

/-- The table is consistent, and it has the members and slots that operations have given it. The
first slot that was asked for is the one that counts. -/
structure MadeBy (table : SymbolTable) (history : History) : Prop extends table.Consistent where
  fields : table.ListsAdded history (·.fields) (·.isField)
  methods : table.ListsAdded history (·.methods) (·.isMethod)
  slots : ∀ x, table.slot? x = history.firstSlot? x

namespace MadeBy

theorem empty : MadeBy {} [] where
  toConsistent := .empty
  fields := fun _ => rfl
  methods := fun _ => rfl
  slots := fun _ => rfl

/-- An operation that neither adds a member nor asks for a slot makes no difference to lists and
slots. -/
theorem note (h : table.MadeBy history) (hentered : ∀ c sort, entered? c sort entry = none)
    (hslot : ∀ x, slotAsked? x entry = none) : table.MadeBy (history ++ [entry]) where
  toConsistent := h.toConsistent
  fields := h.fields.note fun c => hentered c _
  methods := h.methods.note fun c => hentered c _
  slots := by
    intro x
    rw [h.slots, History.firstSlot?_append]
    simp [History.firstSlot?, hslot]

theorem add (h : table.MadeBy history) (hempty : kind.isClass = true → kind = .cls {}) :
    (table.add name kind ty span).MadeBy history where
  toConsistent := h.toConsistent.add hempty
  fields := h.fields.add rfl hempty
  methods := h.methods.add rfl hempty
  slots := fun _ => slot?_add.trans (h.slots _)

/-- A table that was made by a history and gets one more member was made by the longer history. -/
theorem addMember (h : table.MadeBy history)
    (hadd : table.addMember? cls name kind ty span = some after) :
    after.MadeBy (history ++ [(.addMember cls name kind ty span, .added table.nextId)]) := by
  obtain ⟨info, hkind, htaken, hsort, rfl⟩ := addMember?_eq_some_iff.1 hadd
  have hcls : table.classInfo? cls = some info := classInfo?_eq_some_iff.2 hkind
  have hfree : info.members.get? name = none := by
    simpa [Dict.contains] using htaken
  have hnone : kind.isClass = false := by
    cases kind <;> first | rfl | cases hsort
  have hadded : (table.add name kind ty span).MadeBy history :=
    h.add fun hclass => absurd (hnone.symm.trans hclass) Bool.false_ne_true
  have hkept : (table.add name kind ty span).classInfo? cls = some info :=
    classInfo?_add_of_some hcls
  have hname : (table.add name kind ty span).nameOf table.nextId = name := by
    unfold nameOf
    rw [get?_add, if_pos rfl]
    rfl
  -- the members so far were in the table before the new symbol was, so they stand before it
  have hmember : (info.withMember name kind table.nextId).InStep (table.add name kind ty span) :=
    (hadded.members cls info hkept).withMember hfree hsort (kind?_add.trans (if_pos rfl)) hname
      fun key y hget => ((h.members cls info hcls).named key y hget).1
  refine ⟨hadded.toConsistent.withMember hkept hmember, hadded.fields.withMember hkept rfl,
    hadded.methods.withMember hkept rfl, fun y => ?_⟩
  rw [insertMember, slot?_modify fun symbol => symbol.withMember_slot _ _ _, hadded.slots,
    History.firstSlot?_append]
  simp [History.firstSlot?, slotAsked?]

/-- The parameters of a method are not part of the history. -/
theorem setParams (h : table.MadeBy history) (method : SymbolId) (params : List SymbolId) :
    (table.setParams method params).MadeBy history := by
  have hclass : ∀ symbol : Symbol,
      (symbol.withParams params).kind.class? = symbol.kind.class? :=
    fun symbol => symbol.withParams_class? params
  refine ⟨h.toConsistent.modify_same (fun symbol => symbol.head_withParams params) hclass,
    h.fields.congr fun _ => classInfo?_modify hclass,
    h.methods.congr fun _ => classInfo?_modify hclass, fun y => ?_⟩
  exact (slot?_modify fun symbol => symbol.withParams_slot params).trans (h.slots y)

/-- The first slot that is asked for is given, and no other one later. -/
theorem setSlot (h : table.MadeBy history) (hin : x.index < table.size) (slot : Int) :
    ((TableOp.setSlot x slot).perform table).2.MadeBy
      (history ++ [(.setSlot x slot, ((TableOp.setSlot x slot).perform table).1)]) := by
  have hasked : ∀ y answer, History.firstSlot? (history ++ [(.setSlot x slot, answer)]) y =
      (table.slot? y).or (if x = y then some slot else none) := by
    intro y answer
    rw [History.firstSlot?_append, ← h.slots]
    congr 1
    simp [History.firstSlot?, slotAsked?]
  rw [perform_setSlot]
  cases hset : table.setSlot x slot with
  | error fault =>
    refine ⟨h.toConsistent, h.fields.note fun _ => rfl, h.methods.note fun _ => rfl, fun y => ?_⟩
    rw [hasked]
    unfold SymbolTable.setSlot at hset
    split at hset
    next found hfound =>
      by_cases heq : x = y
      · rw [← heq, hfound, Option.some_or]
      · rw [if_neg heq, Option.or_none]
    next => cases hset
  | ok after =>
    obtain ⟨hfree, rfl⟩ := setSlot_eq_ok_iff.1 hset
    have hhead : ∀ symbol : Symbol, { symbol with slot := some slot }.head = symbol.head :=
      fun _ => rfl
    have hclass : ∀ symbol : Symbol,
        { symbol with slot := some slot }.kind.class? = symbol.kind.class? := fun _ => rfl
    refine ⟨h.toConsistent.modify_same hhead hclass,
      (h.fields.congr fun _ => classInfo?_modify hclass).note fun _ => rfl,
      (h.methods.congr fun _ => classInfo?_modify hclass).note fun _ => rfl, fun y => ?_⟩
    rw [hasked, slot?_modify_slot]
    by_cases heq : y = x
    · subst heq
      obtain ⟨symbol, hget⟩ : ∃ symbol, table.get? y = some symbol :=
        ⟨_, Array.getElem?_eq_getElem hin⟩
      simp [hget, hfree]
    · rw [if_neg heq, if_neg (Ne.symm heq), Option.or_none]

/-- Whatever is asked of the table, it is made by what was asked so far. -/
theorem perform (h : table.MadeBy history) {op : TableOp} (hfits : op.Fits table) :
    (op.perform table).2.MadeBy (history ++ [(op, (op.perform table).1)]) := by
  cases op with
  | add name kind ty span => exact (h.add hfits).note (fun _ _ => rfl) fun _ => rfl
  | addClass name span => exact (h.add fun _ => rfl).note (fun _ _ => rfl) fun _ => rfl
  | addMember cls name kind ty span =>
    rw [perform_addMember]
    cases hadd : table.addMember? cls name kind ty span with
    | none => exact h.note (fun _ _ => rfl) fun _ => rfl
    | some after => exact h.addMember hadd
  | setParams method params => exact (h.setParams method params).note (fun _ _ => rfl) fun _ => rfl
  | setSlot x slot => exact h.setSlot hfits slot

/-- Operations that fit continue the history by exactly what they answer. -/
theorem run (h : table.MadeBy history) {ops : List TableOp} (hfit : AllFit table ops) :
    (TableOp.run table ops).2.MadeBy (history ++ (TableOp.run table ops).1) := by
  induction ops generalizing table history with
  | nil => simpa [TableOp.run] using h
  | cons op ops ih =>
    obtain ⟨hfits, hrest⟩ := hfit
    have hnext := ih (h.perform hfits) hrest
    rwa [List.append_assoc] at hnext

/-- Slots do not change. -/
theorem slot?_run (h : table.MadeBy history) {ops : List TableOp} (hfit : AllFit table ops)
    {slot : Int} (hslot : table.slot? x = some slot) :
    (TableOp.run table ops).2.slot? x = some slot := by
  rw [(h.run hfit).slots, History.firstSlot?_append, ← h.slots, hslot, Option.some_or]

end MadeBy

end SymbolTable

namespace TableOp

/-- Whatever has been asked of a new table, its lists and maps are in step and hold what was added, in
that order. A member that is refused and a slot that is taken leave the table as it is, and no slot
changes later on. -/
theorem run_madeBy {ops : List TableOp} (hfit : AllFit {} ops) :
    let (history, table) := run {} ops
    table.MadeBy history ∧
      (∀ op : TableOp, (op.perform table).1.isFailure = true → (op.perform table).2 = table) ∧
      ∀ later, AllFit table later → ∀ x slot, table.slot? x = some slot →
        (run table later).2.slot? x = some slot := by
  have hmade : (run {} ops).2.MadeBy (run {} ops).1 := SymbolTable.MadeBy.empty.run hfit
  exact ⟨hmade, fun _ => perform_of_isFailure, fun _ hlater _ _ => hmade.slot?_run hlater⟩

/-- Two classes come to a table, with the members of the first. A name that is taken and a class that
is none are refused, and a second slot fails. -/
def filling : List TableOp := [
  .addClass "Point" {},
  .addMember ⟨0⟩ "x" (.field ⟨0⟩ {}) .int {},
  .addMember ⟨0⟩ "made" (.field ⟨0⟩ { isPrivate := true, isStatic := true }) .int {},
  .addMember ⟨0⟩ "move" (.method { owner := ⟨0⟩, modifiers := {} }) .void {},
  .addMember ⟨0⟩ "x" (.method { owner := ⟨0⟩, modifiers := {} }) .void {},
  .add "dx" .param .int {},
  .setParams ⟨3⟩ [⟨4⟩],
  .add "Main" (.cls {}) (.object ⟨5⟩) {},
  .addMember ⟨4⟩ "z" (.field ⟨4⟩ {}) .int {},
  .addMember ⟨0⟩ "y" (.field ⟨0⟩ {}) .int {},
  .setSlot ⟨1⟩ 0,
  .setSlot ⟨6⟩ 1,
  .setSlot ⟨1⟩ 2]

theorem filling_madeBy : AllFit {} filling ∧
    (run {} filling).1.map (·.2) = [.added ⟨0⟩, .added ⟨1⟩, .added ⟨2⟩, .added ⟨3⟩, .refused,
      .added ⟨4⟩, .done, .added ⟨5⟩, .refused, .added ⟨6⟩, .done, .done,
      .failed (.slotReassigned ⟨1⟩)] ∧
    (run {} filling).2.MadeBy (run {} filling).1 ∧
    (run (run {} filling).2 [.setSlot ⟨1⟩ 7]).2.slot? ⟨1⟩ = some 0 := by
  have hfit : AllFit {} filling := by
    refine ⟨trivial, ?_, ?_, ?_, ?_, nofun, ?_, fun _ => rfl, ?_, ?_, ?_, ?_, ?_, trivial⟩ <;>
    · change _ < _
      decide +kernel
  have hslot : (run {} filling).2.slot? ⟨1⟩ = some 0 := by decide +kernel
  have hin : (setSlot ⟨1⟩ 7).Fits (run {} filling).2 := by
    change _ < _
    decide +kernel
  obtain ⟨hmade, -, hslots⟩ := run_madeBy hfit
  exact ⟨hfit, by decide +kernel, hmade, hslots [.setSlot ⟨1⟩ 7] ⟨hin, trivial⟩ _ _ hslot⟩

end TableOp

end SmallJava
