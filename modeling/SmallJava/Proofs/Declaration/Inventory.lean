import SmallJava.Proofs.Declaration.Declared
import SmallJava.Proofs.Reporting.Parts

namespace SmallJava

open Walk

/-- What a symbol stands for, apart from what is entered in it later. -/
def SymbolKind.bare : SymbolKind → SymbolKind
  | cls _ => cls {}
  | method info => method { info with params := [] }
  | kind => kind

/-- What a symbol has from the start. -/
def Symbol.head (symbol : Symbol) : Symbol := { symbol with kind := symbol.kind.bare, slot := none }

/-- The class that a symbol is a member of. -/
def SymbolKind.owner? : SymbolKind → Option SymbolId
  | field owner _ => some owner
  | method info => some info.owner
  | _ => none

/-- A declaration as it is written, and the symbol that it is bound to. -/
structure Decl where
  binding : Option SymbolId
  name : String
  span : Span
  /-- Without members and parameters. -/
  kind : SymbolKind
  /-- A class has no written type. -/
  type : Option TypeExpr

def ClassDef.decl (cls : ClassDef) : Decl := ⟨cls.binding, cls.name, cls.span, .cls {}, none⟩

def FieldDef.decl (owner : SymbolId) (field : FieldDef) : Decl :=
  ⟨field.binding, field.name, field.span, .field owner field.modifiers, some field.type⟩

def ParamDef.decl (param : ParamDef) : Decl :=
  ⟨param.binding, param.name, param.span, .param, some param.type⟩

def LocalDef.decl (var : LocalDef) : Decl :=
  ⟨var.binding, var.name, var.span, .localVar, some var.type⟩

def MethodDef.decl (owner : SymbolId) (method : MethodDef) : Decl :=
  ⟨method.binding, method.name, method.span, .method { owner, modifiers := method.modifiers },
    some method.returnType⟩

/-- A method and its parameters. -/
def MethodDef.decls (owner : SymbolId) (method : MethodDef) : List Decl :=
  method.decl owner :: method.params.map ParamDef.decl

/-- The members of a class with their parameters, the fields first. -/
def ClassDef.memberDecls (cls : ClassDef) : List Decl :=
  match cls.binding with
  | none => []
  | some c => cls.fields.map (FieldDef.decl c) ++ cls.methods.flatMap (MethodDef.decls c)

/-- The variables that some statements declare themselves. -/
def Stmt.declsOf (stmts : List Stmt) : List Decl :=
  stmts.filterMap fun stmt => stmt.var?.map LocalDef.decl

/-- The local variables of a body. -/
def Stmt.localDecls (stmts : List Stmt) : List Decl := declsOf (allStmts stmts)

/-- The local variables of a class. -/
def ClassDef.localDecls (cls : ClassDef) : List Decl :=
  cls.methods.flatMap fun method => Stmt.localDecls method.body

/-- All declarations of a program: the classes, then their members, then the local variables. -/
def Package.decls (package : Package) : List Decl :=
  package.classes.map ClassDef.decl ++ package.classes.flatMap ClassDef.memberDecls ++
    package.classes.flatMap ClassDef.localDecls

/-- The declarations that every program finds in place. -/
def Builtins.decls : List Decl :=
  classDefs.map ClassDef.decl ++ classDefs.flatMap ClassDef.memberDecls ++
    [⟨some ⟨6⟩, "length", {}, .arrayLength, some (.int {})⟩]

namespace Decl

/-- The type that a declaration is written with. That of a class is its own. -/
def ty (b : Bindings) (decl : Decl) (x : SymbolId) : Except Diagnostic Ty :=
  match decl.type with
  | none => .ok (.object x)
  | some type => type.resolve b.scope b.builtins

/-- The declaration is in the table as it is written. -/
structure EnteredAt (b : Bindings) (decl : Decl) (x : SymbolId) : Prop where
  bound : decl.binding = some x
  entry : ∃ ty, decl.ty b x = .ok ty ∧ (b.table.get? x).map Symbol.head =
    some { name := decl.name, kind := decl.kind, ty, span := decl.span }

def isMethodOf (c : SymbolId) (decl : Decl) : Bool := decl.kind.isMethod && decl.kind.owner? = some c

/-- An entry stays as long as nothing is changed in it, and no class loses its name. -/
theorem EnteredAt.mono {b b' : Bindings} {decl : Decl} {x : SymbolId} (h : decl.EnteredAt b x)
    (hbuiltins : b'.builtins = b.builtins)
    (hclasses : ∀ name c, b.scope.classes.get? name = some c → b'.scope.classes.get? name = some c)
    (hkept : (b'.table.get? x).map Symbol.head = (b.table.get? x).map Symbol.head) :
    decl.EnteredAt b' x where
  bound := h.bound
  entry := by
    obtain ⟨ty, hty, hentry⟩ := h.entry
    refine ⟨ty, ?_, hkept.trans hentry⟩
    unfold Decl.ty at hty ⊢
    cases htype : decl.type with
    | none =>
      rw [htype] at hty
      exact hty
    | some type =>
      rw [htype] at hty
      rw [hbuiltins]
      exact TypeExpr.resolve_mono hclasses hty

theorem EnteredAt.kind_eq {b : Bindings} {decl : Decl} {x : SymbolId} (h : decl.EnteredAt b x) :
    (b.table.kind? x).map SymbolKind.bare = some decl.kind := by
  obtain ⟨ty, -, hentry⟩ := h.entry
  obtain ⟨symbol, hget, hhead⟩ := Option.map_eq_some_iff.1 hentry
  have hkind : symbol.head.kind = decl.kind := congrArg Symbol.kind hhead
  rw [SymbolTable.kind?, hget, ← hkind]
  rfl

end Decl

/-- Declarations that are bound to some symbols have these as their bindings. -/
theorem map_binding {α : Type} {binding : α → Option SymbolId} {R : α → SymbolId → Prop}
    (hbound : ∀ d x, R d x → binding d = some x) {defs : List α} {ids : List SymbolId}
    (h : List.Forall₂ R defs ids) : defs.map binding = ids.map some := by
  induction h with
  | nil => rfl
  | cons hfirst _ ih => rw [List.map_cons, List.map_cons, ih, hbound _ _ hfirst]

/-- The first positions of a table. -/
def SymbolId.upTo (n : Nat) : List SymbolId := (List.range n).map SymbolId.mk

theorem SymbolId.upTo_succ (n : Nat) : upTo (n + 1) = upTo n ++ [⟨n⟩] := by
  simp [upTo, List.range_succ]

@[simp]
theorem SymbolId.mem_upTo {n : Nat} {x : SymbolId} : x ∈ upTo n ↔ x.index < n := by
  obtain ⟨index⟩ := x
  simp [upTo]

/-- The declarations have one entry each, in this order, and the table has no other. The entry of a
class lists its methods. -/
structure Bindings.Inventory (b : Bindings) (decls : List Decl) : Prop where
  entered : List.Forall₂ (Decl.EnteredAt b) decls (SymbolId.upTo b.table.size)
  methods : ∀ c info, b.table.kind? c = some (.cls info) →
    info.methods.map some = (decls.filter (·.isMethodOf c)).map (·.binding)
  owners : ∀ decl ∈ decls, ∀ c, decl.kind.owner? = some c → c.index < b.table.size

theorem Symbol.head_withMember (symbol : Symbol) (name : String) (kind : SymbolKind) (x : SymbolId) :
    (symbol.withMember name kind x).head = symbol.head := by
  obtain ⟨_, found, _, _, _⟩ := symbol
  cases found <;> rfl

theorem Symbol.head_withParams (symbol : Symbol) (params : List SymbolId) :
    (symbol.withParams params).head = symbol.head := by
  obtain ⟨_, found, _, _, _⟩ := symbol
  cases found <;> rfl

namespace SymbolTable

variable {table : SymbolTable} {x cls : SymbolId} {name : String} {kind : SymbolKind} {ty : Ty}
  {span : Span}

/-- A change that no class shows leaves all classes with their members. -/
theorem classInfo?_modify {f : Symbol → Symbol}
    (hf : ∀ symbol, (f symbol).kind.class? = symbol.kind.class?) :
    (table.modify cls f).classInfo? x = table.classInfo? x := by
  unfold classInfo? kind?
  rw [Option.bind_map, Option.bind_map]
  exact bind_get?_modify hf table cls x

theorem head_add : ((table.add name kind ty span).get? x).map Symbol.head =
    if x = table.nextId then some { name, kind := kind.bare, ty, span }
    else (table.get? x).map Symbol.head := by
  rw [get?_add]
  split <;> rfl

end SymbolTable

namespace Bindings.Inventory

variable {b b' : Bindings} {decls : List Decl}

/-- Only the classes in force are looked at of all the names. -/
theorem congr (h : b.Inventory decls) (htable : b'.table = b.table)
    (hbuiltins : b'.builtins = b.builtins) (hclasses : b'.scope.classes = b.scope.classes) :
    b'.Inventory decls where
  entered := by
    rw [htable]
    exact h.entered.imp fun _ _ hentry =>
      hentry.mono hbuiltins (fun _ _ => by rw [hclasses]; exact id) (by rw [htable])
  methods := htable ▸ h.methods
  owners := htable ▸ h.owners

/-- One more entry at the end. -/
theorem entered_add (h : b.Inventory decls) {decl : Decl} (hbuiltins : b'.builtins = b.builtins)
    (hclasses : ∀ name c, b.scope.classes.get? name = some c → b'.scope.classes.get? name = some c)
    (hsize : b'.table.size = b.table.size + 1)
    (hkept : ∀ x, x ≠ b.table.nextId →
      (b'.table.get? x).map Symbol.head = (b.table.get? x).map Symbol.head)
    (hnew : decl.EnteredAt b' b.table.nextId) :
    List.Forall₂ (Decl.EnteredAt b') (decls ++ [decl]) (SymbolId.upTo b'.table.size) := by
  rw [hsize, SymbolId.upTo_succ]
  refine List.rel_append ?_ (.cons hnew .nil)
  obtain ⟨hentered, -, -⟩ := h
  have hlt : ∀ x ∈ SymbolId.upTo b.table.size, x ≠ b.table.nextId := by
    rintro x hmem rfl
    exact Nat.lt_irrefl _ (SymbolId.mem_upTo.1 hmem)
  generalize SymbolId.upTo b.table.size = ids at hentered hlt
  induction hentered with
  | nil => exact .nil
  | @cons _ x _ _ hfirst _ ih =>
    exact .cons (hfirst.mono hbuiltins hclasses (hkept x (hlt x List.mem_cons_self)))
      (ih fun y hmem => hlt y (List.mem_cons_of_mem _ hmem))

/-- A declaration that belongs to no class is listed in none. -/
theorem filter_append {decl : Decl} (howner : decl.kind.owner? = none) (c : SymbolId) :
    (decls ++ [decl]).filter (·.isMethodOf c) = decls.filter (·.isMethodOf c) := by
  simp [Decl.isMethodOf, howner]

/-- The owners of the inventory and of one more declaration are in the table. -/
theorem owners_append (h : b.Inventory decls) {decl : Decl} {size : Nat} (hsize : b.table.size ≤ size)
    (howner : ∀ c, decl.kind.owner? = some c → c.index < size) :
    ∀ other ∈ decls ++ [decl], ∀ c, other.kind.owner? = some c → c.index < size := by
  intro other hmem c hc
  obtain hmem | hmem := List.mem_append.1 hmem
  · exact Nat.lt_of_lt_of_le (h.owners other hmem c hc) hsize
  · obtain rfl := List.mem_singleton.1 hmem
    exact howner c hc

/-- A variable comes with one entry, which no class lists. -/
theorem addVariable (h : b.Inventory decls) {name : String} {kind : SymbolKind} {span : Span}
    {type : TypeExpr} {ty : Ty} (hvar : kind.isVariable = true)
    (hresolve : type.resolve b.scope b.builtins = .ok ty) :
    Bindings.Inventory { b with table := b.table.add name kind ty span }
      (decls ++ [⟨some b.table.nextId, name, span, kind, some type⟩]) := by
  obtain ⟨hbare, howner, hclass⟩ : kind.bare = kind ∧ kind.owner? = none ∧ ∀ info, kind ≠ .cls info := by
    cases kind <;> simp_all [SymbolKind.isVariable, SymbolKind.bare, SymbolKind.owner?]
  have hkind : ∀ c info, (b.table.add name kind ty span).kind? c = some (.cls info) →
      b.table.kind? c = some (.cls info) := by
    intro c info hc
    obtain ⟨-, heq⟩ | hc := SymbolTable.add_cases hc
    · exact absurd heq.symm (hclass info)
    · exact hc
  refine ⟨h.entered_add rfl (fun _ _ => id) (by simp) (fun x hne => ?_) ⟨rfl, ty, hresolve, ?_⟩,
    fun c info hc => ?_, h.owners_append (by simp) (by simp [howner])⟩
  · rw [SymbolTable.head_add, if_neg hne]
  · rw [SymbolTable.head_add, if_pos rfl, hbare]
  · rw [filter_append howner c]
    exact h.methods c info (hkind c info hc)

/-- A class comes with one entry, which lists no members. -/
theorem addClass (h : b.Inventory decls) {cls : ClassDef}
    (hfree : b.scope.classes.get? cls.name = none) :
    Bindings.Inventory { b with
      table := b.table.addClass cls.name cls.span
      scope := { b.scope with classes := b.scope.classes.insert cls.name b.table.nextId } }
      (decls ++ [{ cls with binding := some b.table.nextId }.decl]) := by
  have hclasses : ∀ name c, b.scope.classes.get? name = some c →
      (b.scope.classes.insert cls.name b.table.nextId).get? name = some c := by
    intro name c hget
    rw [Dict.get?_insert, if_neg]
    · exact hget
    · rintro rfl
      rw [hfree] at hget
      cases hget
  have hkind : ∀ c info, (b.table.addClass cls.name cls.span).kind? c = some (.cls info) →
      c = b.table.nextId ∧ info = {} ∨ b.table.kind? c = some (.cls info) := by
    intro c info hc
    exact (SymbolTable.add_cases hc).imp_left (And.imp_right SymbolKind.cls.inj)
  -- what is declared so far belongs to classes that are in the table
  have hnew : ∀ decl ∈ decls, decl.isMethodOf b.table.nextId = false := by
    intro decl hmem
    have hne : decl.kind.owner? ≠ some b.table.nextId := fun howner =>
      Nat.lt_irrefl _ (h.owners decl hmem _ howner)
    simp [Decl.isMethodOf, hne]
  refine ⟨h.entered_add rfl hclasses (by simp [SymbolTable.addClass]) (fun x hne => ?_)
    ⟨rfl, _, rfl, ?_⟩, fun c info hc => ?_,
    h.owners_append (by simp [SymbolTable.addClass]) (by simp [ClassDef.decl, SymbolKind.owner?])⟩
  · exact SymbolTable.head_add.trans (if_neg hne)
  · exact SymbolTable.head_add.trans (if_pos rfl)
  · rw [filter_append rfl c]
    obtain ⟨rfl, rfl⟩ | hc := hkind c info hc
    · rw [List.filter_eq_nil_iff.2 fun decl hmem => by simp [hnew decl hmem]]
      rfl
    · exact h.methods c info hc

/-- A member comes with one entry, which its class lists last. -/
theorem insertMember (h : b.Inventory decls) {c : SymbolId} {info : ClassInfo}
    (hcls : b.table.kind? c = some (.cls info)) {name : String} {kind : SymbolKind} {span : Span}
    {type : TypeExpr} {ty : Ty} (hbare : kind.bare = kind) (howner : kind.owner? = some c)
    (hresolve : type.resolve b.scope b.builtins = .ok ty) :
    Bindings.Inventory { b with table := b.table.insertMember c name kind ty span }
      (decls ++ [⟨some b.table.nextId, name, span, kind, some type⟩]) := by
  have hlists : ∀ c' info', (b.table.insertMember c name kind ty span).kind? c' = some (.cls info') →
      c' = c ∧ info' = info.withMember name kind b.table.nextId ∨
        c' ≠ c ∧ b.table.kind? c' = some (.cls info') := by
    intro c' info' hc
    obtain ⟨-, rfl⟩ | ⟨heq, hinfo⟩ | hc := SymbolTable.insertMember_cases hcls hc
    · cases howner
    · exact .inl ⟨heq, SymbolKind.cls.inj hinfo⟩
    · exact .inr hc
  have hsize : (b.table.insertMember c name kind ty span).size = b.table.size + 1 := by
    simp [SymbolTable.insertMember]
  have hhead : ∀ x, ((b.table.insertMember c name kind ty span).get? x).map Symbol.head =
      if x = b.table.nextId then some { name, kind := kind.bare, ty, span }
      else (b.table.get? x).map Symbol.head := fun x =>
    (SymbolTable.map_get?_modify (fun symbol => symbol.head_withMember _ _ _) _ _ _).trans
      SymbolTable.head_add
  refine ⟨h.entered_add rfl (fun _ _ => id) hsize (fun x hne => (hhead x).trans (if_neg hne))
    ⟨rfl, ty, hresolve, ?_⟩, fun c' info' hc => ?_,
    h.owners_append (hsize ▸ Nat.le_succ _) fun c' hc => ?_⟩
  · rw [hhead, if_pos rfl, hbare]
  · rw [List.filter_append, List.map_append]
    obtain ⟨rfl, rfl⟩ | ⟨hne, hc⟩ := hlists c' info' hc
    · rw [← h.methods c' info hcls]
      cases hmethod : kind.isMethod <;> simp [ClassInfo.withMember, Decl.isMethodOf, hmethod, howner]
    · rw [← h.methods c' info' hc]
      simp [Decl.isMethodOf, howner, Ne.symm hne]
  · obtain rfl := Option.some.inj (howner.symm.trans hc)
    rw [hsize]
    exact Nat.lt_succ_of_lt (SymbolTable.lt_size_of_kind? hcls)

/-- Parameters are entered in a method that is there. -/
theorem setParams (h : b.Inventory decls) (m : SymbolId) (params : List SymbolId) :
    Bindings.Inventory { b with table := b.table.setParams m params } decls := by
  have hhead : ∀ x, ((b.table.setParams m params).get? x).map Symbol.head =
      (b.table.get? x).map Symbol.head := fun x =>
    SymbolTable.map_get?_modify (fun symbol => symbol.head_withParams _) _ _ _
  have hkind : ∀ c info, (b.table.setParams m params).kind? c = some (.cls info) →
      b.table.kind? c = some (.cls info) := by
    intro c info hc
    rw [← SymbolTable.classInfo?_eq_some_iff] at hc ⊢
    rwa [SymbolTable.setParams, SymbolTable.classInfo?_modify fun symbol => symbol.withParams_class? _]
      at hc
  refine ⟨?_, fun c info hc => h.methods c info (hkind c info hc), ?_⟩
  · simp only [SymbolTable.setParams, SymbolTable.size_modify]
    exact h.entered.imp fun _ x hentry => hentry.mono rfl (fun _ _ => id) (hhead x)
  · simpa only [SymbolTable.setParams, SymbolTable.size_modify] using h.owners

/-- The declarations are bound to the symbols of the table, one after the other. -/
theorem bindings (h : b.Inventory decls) :
    decls.map (·.binding) = (SymbolId.upTo b.table.size).map some :=
  map_binding (fun _ _ hentry => hentry.bound) h.entered

end Bindings.Inventory

/-- The table that every program starts from. -/
theorem Bindings.initial_inventory : Bindings.initial.Inventory Builtins.decls where
  entered := by
    refine .cons ⟨rfl, _, rfl, rfl⟩ <| .cons ⟨rfl, _, rfl, rfl⟩ <| .cons ⟨rfl, _, rfl, rfl⟩ <|
      .cons ⟨rfl, _, rfl, rfl⟩ <| .cons ⟨rfl, _, rfl, rfl⟩ <| .cons ⟨rfl, _, rfl, rfl⟩ <|
        .cons ⟨rfl, _, rfl, rfl⟩ .nil
  methods := by
    have hall : ∀ index < 7, (Bindings.initial.table.classInfo? ⟨index⟩).all (fun info =>
        info.methods.map some == (Builtins.decls.filter (·.isMethodOf ⟨index⟩)).map (·.binding)) := by
      decide +kernel
    intro c info hc
    have hlists := hall c.index (SymbolTable.lt_size_of_kind? hc)
    simpa [SymbolTable.classInfo?, hc, SymbolKind.class?] using hlists
  owners := by
    intro decl hmem c howner
    have hall : Builtins.decls.all (fun decl => decl.kind.owner?.all (·.index < 7)) := by
      decide +kernel
    have howners := List.all_eq_true.1 hall decl hmem
    rw [howner] at howners
    exact of_decide_eq_true howners

end SmallJava
