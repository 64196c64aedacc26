import SmallJava.Proofs.Declaration.Inventory
import SmallJava.Symbol.Layout

/-! What can be asked of a symbol table, one operation after the other, and what each of them leaves
in it. -/

namespace SmallJava

namespace SymbolTable

/-- `addMember?` in place. What is written before an exit stays, so all doubts about the member have
to be settled before it is appended. -/
def enterMember (table : SymbolTable) (cls : SymbolId) (name : String) (kind : SymbolKind)
    (ty : Ty) (span : Span) : Option SymbolId × SymbolTable :=
  match table.classInfo? cls with
  | none => (none, table)
  | some info =>
    if info.members.contains name then (none, table)
    else if !(kind.isField || kind.isMethod) then (none, table)
    else
      let after := table.add name kind ty span
      -- the class is looked up once more, now that the symbol is there
      match after.classInfo? cls with
      | none => (none, after)
      | some _ => (some table.nextId, after.modify cls (·.withMember name kind table.nextId))

end SymbolTable

/-- What can be asked of a symbol table. -/
inductive TableOp where
  | add (name : String) (kind : SymbolKind) (ty : Ty) (span : Span)
  | addClass (name : String) (span : Span)
  | addMember (cls : SymbolId) (name : String) (kind : SymbolKind) (ty : Ty) (span : Span)
  | setParams (method : SymbolId) (params : List SymbolId)
  | setSlot (x : SymbolId) (slot : Int)

namespace TableOp

/-- What an operation answers. -/
inductive Answer where
  | added (x : SymbolId)
  | done
  /-- The class does not admit the member. -/
  | refused
  /-- The slot is taken. -/
  | failed (fault : InternalError)
  deriving DecidableEq

def Answer.isFailure : Answer → Bool
  | refused | failed _ => true
  | added _ | done => false

/-- Performs one operation. -/
def perform (table : SymbolTable) : TableOp → Answer × SymbolTable
  | add name kind ty span => (.added table.nextId, table.add name kind ty span)
  | addClass name span => (.added table.nextId, table.addClass name span)
  | addMember cls name kind ty span =>
    match table.enterMember cls name kind ty span with
    | (none, after) => (.refused, after)
    | (some x, after) => (.added x, after)
  | setParams method params => (.done, table.setParams method params)
  | setSlot x slot =>
    match SlotWriter.assign x slot table with
    | .ok () after => (.done, after)
    | .error fault after => (.failed fault, after)

/-- The symbol that an operation works on is in the table, and a class comes without members. -/
def Fits (table : SymbolTable) : TableOp → Prop
  | add _ kind _ _ => kind.isClass = true → kind = .cls {}
  | addClass .. => True
  | addMember cls .. => cls.index < table.size
  | setParams method _ => method.index < table.size
  | setSlot x _ => x.index < table.size

/-- Each operation fits the table when its turn comes. -/
def AllFit (table : SymbolTable) : List TableOp → Prop
  | [] => True
  | op :: ops => op.Fits table ∧ AllFit (op.perform table).2 ops

/-- What was asked and what was answered, the earliest first. -/
abbrev History := List (TableOp × Answer)

/-- Performs operations one after the other and keeps the answers. -/
def run (table : SymbolTable) : List TableOp → History × SymbolTable
  | [] => ([], table)
  | op :: ops =>
    let next := op.perform table
    let rest := run next.2 ops
    ((op, next.1) :: rest.1, rest.2)

/-- The symbol that an operation has added to the class, if it is of the sort. -/
def entered? (cls : SymbolId) (sort : SymbolKind → Bool) : TableOp × Answer → Option SymbolId
  | (addMember owner _ kind _ _, .added x) => if owner = cls ∧ sort kind then some x else none
  | _ => none

/-- The slot that an operation asks for. -/
def slotAsked? (x : SymbolId) : TableOp × Answer → Option Int
  | (setSlot y slot, _) => if y = x then some slot else none
  | _ => none

namespace History

/-- The members of one sort that have been added to a class, in the order in which they were. -/
def membersOf (history : History) (cls : SymbolId) (sort : SymbolKind → Bool) : List SymbolId :=
  history.filterMap (entered? cls sort)

/-- The slot that was asked for first. -/
def firstSlot? (history : History) (x : SymbolId) : Option Int :=
  history.findSome? (slotAsked? x)

variable {history : History} {entry : TableOp × Answer} {cls x : SymbolId}
  {sort : SymbolKind → Bool}

theorem membersOf_append : membersOf (history ++ [entry]) cls sort =
    history.membersOf cls sort ++ (entered? cls sort entry).toList := by
  unfold membersOf
  rw [List.filterMap_append]
  cases hentered : entered? cls sort entry <;> simp [hentered]

theorem firstSlot?_append (later : History) :
    firstSlot? (history ++ later) x = (history.firstSlot? x).or (firstSlot? later x) :=
  List.findSome?_append

end History

end TableOp

namespace SymbolTable

variable {table : SymbolTable} {x cls : SymbolId} {name : String} {kind : SymbolKind} {ty : Ty}
  {span : Span}

theorem classInfo?_add : (table.add name kind ty span).classInfo? x =
    if x = table.nextId then kind.class? else table.classInfo? x := by
  unfold classInfo?
  rw [kind?_add]
  split <;> rfl

/-- A class has the members that it had before a symbol is appended. -/
theorem classInfo?_add_of_some {info : ClassInfo} (hcls : table.classInfo? cls = some info) :
    (table.add name kind ty span).classInfo? cls = some info := by
  rw [classInfo?_add, if_neg (ne_nextId (classInfo?_eq_some_iff.1 hcls)), hcls]

/-- Entering a member into a class changes the entry of this class only. -/
theorem classInfo?_modify_withMember {info : ClassInfo} (hcls : table.classInfo? cls = some info)
    (new : SymbolId) : (table.modify cls (·.withMember name kind new)).classInfo? x =
      if x = cls then some (info.withMember name kind new) else table.classInfo? x := by
  obtain ⟨symbol, hget, hsymbol⟩ := Option.map_eq_some_iff.1 (classInfo?_eq_some_iff.1 hcls)
  unfold classInfo? kind?
  rw [get?_modify]
  by_cases hx : x = cls
  · subst hx
    simp [hget, Symbol.withMember, hsymbol, SymbolKind.class?]
  · rw [if_neg hx, if_neg hx]

/-- A new symbol has no slot, which is what is said of an identifier outside the table too. -/
theorem slot?_add : (table.add name kind ty span).slot? x = table.slot? x := by
  unfold slot?
  rw [get?_add]
  split
  next hnew =>
    subst hnew
    rw [(get?_of_ge (Nat.le_refl _) : table.get? table.nextId = none)]
    rfl
  next => rfl

theorem slot?_modify {f : Symbol → Symbol} (hf : ∀ symbol, (f symbol).slot = symbol.slot) :
    (table.modify cls f).slot? x = table.slot? x :=
  bind_get?_modify hf table cls x

/-- A member is entered as a whole or not at all: the class does not vanish when a symbol is
appended. -/
theorem enterMember_eq : table.enterMember cls name kind ty span =
    match table.addMember? cls name kind ty span with
    | none => (none, table)
    | some after => (some table.nextId, after) := by
  unfold enterMember addMember? admitsMember
  cases hcls : table.classInfo? cls with
  | none => rfl
  | some info =>
    have hkept : (table.add name kind ty span).classInfo? cls = some info :=
      classInfo?_add_of_some hcls
    cases htaken : info.members.contains name with
    | true => simp [htaken]
    | false =>
      cases hsort : kind.isField || kind.isMethod with
      | true => simp [htaken, hkept, insertMember]
      | false => simp [htaken]

end SymbolTable

namespace TableOp

variable {table : SymbolTable}

/-- A member is either refused, and the table is kept, or added under the next identifier. -/
theorem perform_addMember {cls : SymbolId} {name : String} {kind : SymbolKind} {ty : Ty}
    {span : Span} : (addMember cls name kind ty span).perform table =
      match table.addMember? cls name kind ty span with
      | none => (.refused, table)
      | some after => (.added table.nextId, after) := by
  change (match table.enterMember cls name kind ty span with
    | (none, after) => (Answer.refused, after)
    | (some x, after) => (.added x, after)) = _
  rw [SymbolTable.enterMember_eq]
  cases table.addMember? cls name kind ty span <;> rfl

/-- A slot is either set, or the operation fails and the table is kept. -/
theorem perform_setSlot {x : SymbolId} {slot : Int} : (setSlot x slot).perform table =
    match table.setSlot x slot with
    | .ok after => (.done, after)
    | .error fault => (.failed fault, table) := by
  change (match SlotWriter.assign x slot table with
    | .ok () after => (Answer.done, after)
    | .error fault after => (.failed fault, after)) = _
  unfold SlotWriter.assign
  cases table.setSlot x slot <;> rfl

/-- An operation that fails changes nothing. -/
theorem perform_of_isFailure {op : TableOp} (hfails : (op.perform table).1.isFailure = true) :
    (op.perform table).2 = table := by
  cases op with
  | add | addClass | setParams => cases hfails
  | addMember cls name kind ty span =>
    rw [perform_addMember] at hfails ⊢
    cases hadd : table.addMember? cls name kind ty span with
    | none => rfl
    | some after => simp [hadd, Answer.isFailure] at hfails
  | setSlot x slot =>
    rw [perform_setSlot] at hfails ⊢
    cases hset : table.setSlot x slot with
    | error fault => rfl
    | ok after => simp [hset, Answer.isFailure] at hfails

end TableOp

end SmallJava
