import SmallJava.InternalError
import SmallJava.Symbol.Basic

namespace SmallJava

/-- The declarations of one compilation, addressed by their position. -/
structure SymbolTable where
  symbols : Array Symbol := #[]
  /-- The classes, in the order of their registration. -/
  classes : List SymbolId := []
  deriving Inhabited

namespace SymbolTable

def size (table : SymbolTable) : Nat := table.symbols.size

def isEmpty (table : SymbolTable) : Bool := table.symbols.isEmpty

def get? (table : SymbolTable) (id : SymbolId) : Option Symbol := table.symbols[id.index]?

/-- Replaces one symbol by its image under `f`. -/
def modify (table : SymbolTable) (id : SymbolId) (f : Symbol → Symbol) : SymbolTable :=
  { table with symbols := table.symbols.modify id.index f }

/-- The position that the next symbol will get. -/
def nextId (table : SymbolTable) : SymbolId := ⟨table.size⟩

/-- Appends a symbol at `nextId`. -/
def add (table : SymbolTable) (name : String) (kind : SymbolKind) (ty : Ty) (span : Span) :
    SymbolTable where
  symbols := table.symbols.push { name, kind, ty, span }
  classes := if kind.isClass then table.classes ++ [table.nextId] else table.classes

@[simp]
theorem size_modify (table : SymbolTable) (id : SymbolId) (f : Symbol → Symbol) :
    (table.modify id f).size = table.size := by
  simp [modify, size]

@[simp]
theorem size_add (table : SymbolTable) (name : String) (kind : SymbolKind) (ty : Ty)
    (span : Span) : (table.add name kind ty span).size = table.size + 1 := by
  simp [add, size]

theorem get?_modify (table : SymbolTable) (id query : SymbolId) (f : Symbol → Symbol) :
    (table.modify id f).get? query =
      if query = id then (table.get? query).map f else table.get? query := by
  obtain ⟨index⟩ := id
  obtain ⟨queried⟩ := query
  simp only [get?, modify, Array.getElem?_modify, SymbolId.mk.injEq, eq_comm]

/-- A change that a view of the symbols does not show leaves what is seen of them. -/
theorem bind_get?_modify {α : Type} {view : Symbol → Option α} {f : Symbol → Symbol}
    (hview : ∀ symbol, view (f symbol) = view symbol) (table : SymbolTable) (id query : SymbolId) :
    ((table.modify id f).get? query).bind view = (table.get? query).bind view := by
  rw [get?_modify]
  split
  next => cases table.get? query <;> simp [hview]
  next => rfl

theorem map_get?_modify {α : Type} {view : Symbol → α} {f : Symbol → Symbol}
    (hview : ∀ symbol, view (f symbol) = view symbol) (table : SymbolTable) (id query : SymbolId) :
    ((table.modify id f).get? query).map view = (table.get? query).map view := by
  have hsome : ∀ symbol, (some ∘ view) (f symbol) = (some ∘ view) symbol :=
    fun symbol => congrArg some (hview symbol)
  rw [Option.map_eq_bind, Option.map_eq_bind]
  exact bind_get?_modify hsome table id query

theorem get?_add (table : SymbolTable) (name : String) (kind : SymbolKind) (ty : Ty)
    (span : Span) (query : SymbolId) :
    (table.add name kind ty span).get? query =
      if query = table.nextId then some { name, kind, ty, span } else table.get? query := by
  obtain ⟨queried⟩ := query
  simp only [get?, add, Array.getElem?_push, nextId, size, SymbolId.mk.injEq]

/-- Appends a class without members. Its type refers to itself. -/
def addClass (table : SymbolTable) (name : String) (span : Span) : SymbolTable :=
  table.add name (.cls {}) (.object table.nextId) span

def kind? (table : SymbolTable) (id : SymbolId) : Option SymbolKind := (table.get? id).map (·.kind)

def classInfo? (table : SymbolTable) (id : SymbolId) : Option ClassInfo :=
  (table.kind? id).bind (·.class?)

def methodInfo? (table : SymbolTable) (id : SymbolId) : Option MethodInfo :=
  (table.kind? id).bind (·.method?)

def isClass (table : SymbolTable) (id : SymbolId) : Bool := (table.kind? id).any (·.isClass)

def isMethod (table : SymbolTable) (id : SymbolId) : Bool := (table.kind? id).any (·.isMethod)

def isField (table : SymbolTable) (id : SymbolId) : Bool := (table.kind? id).any (·.isField)

def isStatic (table : SymbolTable) (id : SymbolId) : Bool := (table.kind? id).any (·.isStatic)

/-- The name of a symbol; an identifier outside the table has the empty one. -/
def nameOf (table : SymbolTable) (id : SymbolId) : String := ((table.get? id).map (·.name)).getD ""

/-- The type of a symbol; an identifier outside the table has the error type. -/
def typeOf (table : SymbolTable) (id : SymbolId) : Ty := ((table.get? id).map (·.ty)).getD .error

/-- The parameters of a method; nothing else has any. -/
def paramsOf (table : SymbolTable) (id : SymbolId) : List SymbolId :=
  ((table.methodInfo? id).map (·.params)).getD []

end SymbolTable

/-- Enters a member in the name maps and in the list that its kind calls for. -/
def ClassInfo.withMember (info : ClassInfo) (name : String) (kind : SymbolKind) (id : SymbolId) :
    ClassInfo where
  members := info.members.insert name id
  visible :=
    if kind.modifiers?.any (·.isPrivate) then info.visible else info.visible.insert name id
  fields := if kind.isField then info.fields ++ [id] else info.fields
  methods := if kind.isMethod then info.methods ++ [id] else info.methods

def Symbol.withMember (symbol : Symbol) (name : String) (kind : SymbolKind) (id : SymbolId) :
    Symbol :=
  match symbol.kind with
  | .cls info => { symbol with kind := .cls (info.withMember name kind id) }
  | _ => symbol

def Symbol.withParams (symbol : Symbol) (params : List SymbolId) : Symbol :=
  match symbol.kind with
  | .method info => { symbol with kind := .method { info with params } }
  | _ => symbol

namespace Symbol

variable (symbol : Symbol) (name : String) (kind : SymbolKind) (id : SymbolId)
  (params : List SymbolId)

@[simp]
theorem withMember_name : (symbol.withMember name kind id).name = symbol.name := by
  unfold withMember
  split <;> rfl

@[simp]
theorem withMember_ty : (symbol.withMember name kind id).ty = symbol.ty := by
  unfold withMember
  split <;> rfl

@[simp]
theorem withMember_slot : (symbol.withMember name kind id).slot = symbol.slot := by
  unfold withMember
  split <;> rfl

@[simp]
theorem withParams_name : (symbol.withParams params).name = symbol.name := by
  unfold withParams
  split <;> rfl

@[simp]
theorem withParams_ty : (symbol.withParams params).ty = symbol.ty := by
  unfold withParams
  split <;> rfl

@[simp]
theorem withParams_slot : (symbol.withParams params).slot = symbol.slot := by
  unfold withParams
  split <;> rfl

/-- Only methods have parameters, so nothing changes of the classes. -/
@[simp]
theorem withParams_class? : (symbol.withParams params).kind.class? = symbol.kind.class? := by
  unfold withParams
  split
  next hkind => rw [hkind]; rfl
  next => rfl

end Symbol

namespace SymbolTable

/-- Appends a member at `nextId` and enters it in its class, whether or not its
    name is free there. -/
def insertMember (table : SymbolTable) (cls : SymbolId) (name : String) (kind : SymbolKind)
    (ty : Ty) (span : Span) : SymbolTable :=
  (table.add name kind ty span).modify cls (·.withMember name kind table.nextId)

/-- Whether `insertMember` keeps names unambiguous: the owner is a class, the
    name is free in it, and the kind is that of a field or method. -/
def admitsMember (table : SymbolTable) (cls : SymbolId) (name : String) (kind : SymbolKind) :
    Bool :=
  match table.classInfo? cls with
  | some info => !info.members.contains name && (kind.isField || kind.isMethod)
  | none => false

/-- Appends a member at `nextId`, if its class admits it. -/
def addMember? (table : SymbolTable) (cls : SymbolId) (name : String) (kind : SymbolKind)
    (ty : Ty) (span : Span) : Option SymbolTable :=
  if table.admitsMember cls name kind then some (table.insertMember cls name kind ty span)
  else none

/-- Attaches the parameters of a method, once they are in the table. -/
def setParams (table : SymbolTable) (method : SymbolId) (params : List SymbolId) : SymbolTable :=
  table.modify method (·.withParams params)

def slot? (table : SymbolTable) (id : SymbolId) : Option Int := (table.get? id).bind (·.slot)

/-- A slot that must have been assigned before. -/
def expectSlot (table : SymbolTable) (id : SymbolId) : Except InternalError Int :=
  match table.slot? id with
  | some slot => .ok slot
  | none => .error (.slotUnassigned id)

/-- Assigns a slot. No symbol gets a second one. -/
def setSlot (table : SymbolTable) (id : SymbolId) (slot : Int) :
    Except InternalError SymbolTable :=
  match table.slot? id with
  | some _ => .error (.slotReassigned id)
  | none => .ok (table.modify id fun symbol => { symbol with slot := some slot })

/-- The spelling of a type in the program's own names. -/
def describe (table : SymbolTable) : Ty → String
  | .object cls => table.nameOf cls
  | .array elem => table.describe elem ++ "[]"
  | .unsupported => "String"
  | ty => ty.render

end SymbolTable

end SmallJava
