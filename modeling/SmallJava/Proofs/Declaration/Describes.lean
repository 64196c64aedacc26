import Mathlib.Data.List.Forall2
import Mathlib.Data.List.Nodup
import SmallJava.Proofs.Analysis.Yields
import SmallJava.Proofs.Declaration.WellFormed
import SmallJava.Analysis.Package

namespace SmallJava

open Walk

/-- What a class says of one of its members. -/
structure MemberDef where
  name : String
  modifiers : Modifiers
  binding : Option SymbolId

def FieldDef.member (field : FieldDef) : MemberDef := ⟨field.name, field.modifiers, field.binding⟩

def MethodDef.member (method : MethodDef) : MemberDef :=
  ⟨method.name, method.modifiers, method.binding⟩

/-- The members of a class, the fields first. -/
def ClassDef.members (cls : ClassDef) : List MemberDef :=
  cls.fields.map FieldDef.member ++ cls.methods.map MethodDef.member

/-- The name maps of a class have these members and no others. -/
structure ClassInfo.Has (info : ClassInfo) (defs : List MemberDef) : Prop where
  nodup : (defs.map (·.name)).Nodup
  bound : ∀ d ∈ defs, ∃ x, d.binding = some x
  members : ∀ name x, info.members.get? name = some x ↔
    ∃ d ∈ defs, d.name = name ∧ d.binding = some x
  visible : ∀ name x, info.visible.get? name = some x ↔
    ∃ d ∈ defs, d.name = name ∧ d.binding = some x ∧ d.modifiers.isPrivate = false

namespace ClassInfo.Has

variable {info : ClassInfo} {defs : List MemberDef}

theorem empty : ClassInfo.Has {} [] := by
  constructor <;> simp [Dict.get?_empty]

/-- A name is free in a class if and only if no member declared so far has it. -/
theorem fresh_iff (h : info.Has defs) (name : String) :
    info.members.contains name = false ↔ ∀ d ∈ defs, d.name ≠ name := by
  unfold Dict.contains
  constructor
  · rintro hnone d hmem rfl
    obtain ⟨x, hx⟩ := h.bound d hmem
    rw [(h.members d.name x).2 ⟨d, hmem, rfl, hx⟩] at hnone
    cases hnone
  · intro hfresh
    cases hget : info.members.get? name with
    | none => rfl
    | some x =>
      obtain ⟨d, hmem, hname, -⟩ := (h.members name x).1 hget
      exact absurd hname (hfresh d hmem)

/-- A member with a new name is entered as it is written. -/
theorem withMember (h : info.Has defs) {d : MemberDef} {kind : SymbolKind} {x : SymbolId}
    (hfresh : ∀ d' ∈ defs, d'.name ≠ d.name) (hbound : d.binding = some x)
    (hmodifiers : kind.modifiers? = some d.modifiers) :
    (info.withMember d.name kind x).Has (defs ++ [d]) where
  nodup := by
    rw [List.map_append, List.nodup_append]
    refine ⟨h.nodup, by simp, fun name hmem name' hmem' => ?_⟩
    obtain ⟨d', hin, rfl⟩ := List.mem_map.1 hmem
    obtain rfl : name' = d.name := by simpa using hmem'
    exact hfresh d' hin
  bound := by
    intro d' hmem
    obtain hmem | hmem := List.mem_append.1 hmem
    · exact h.bound d' hmem
    · obtain rfl := List.mem_singleton.1 hmem
      exact ⟨x, hbound⟩
  members := by
    intro name y
    change (info.members.insert d.name x).get? name = some y ↔ _
    rw [Dict.get?_insert]
    by_cases heq : name = d.name
    · subst heq
      simp only [↓reduceIte, Option.some.injEq, List.mem_append, List.mem_singleton]
      constructor
      · rintro rfl
        exact ⟨d, .inr rfl, rfl, hbound⟩
      · rintro ⟨d', hmem | rfl, hname, hbound'⟩
        · exact absurd hname (hfresh d' hmem)
        · exact Option.some.inj (hbound.symm.trans hbound')
    · rw [if_neg heq, h.members]
      simp only [List.mem_append, List.mem_singleton]
      constructor
      · rintro ⟨d', hmem, hd'⟩
        exact ⟨d', .inl hmem, hd'⟩
      · rintro ⟨d', hmem | rfl, hname, hd'⟩
        · exact ⟨d', hmem, hname, hd'⟩
        · exact absurd hname.symm heq
  visible := by
    intro name y
    have hget : (info.withMember d.name kind x).visible.get? name =
        if d.modifiers.isPrivate = false ∧ name = d.name then some x
        else info.visible.get? name := by
      unfold ClassInfo.withMember
      rw [hmodifiers]
      cases hprivate : d.modifiers.isPrivate <;> simp [hprivate, Dict.get?_insert]
    rw [hget]
    simp only [List.mem_append, List.mem_singleton]
    by_cases hnew : d.modifiers.isPrivate = false ∧ name = d.name
    · rw [if_pos hnew]
      obtain ⟨hpublic, rfl⟩ := hnew
      constructor
      · rintro ⟨⟩
        exact ⟨d, .inr rfl, rfl, hbound, hpublic⟩
      · rintro ⟨d', hmem | rfl, hname, hbound', -⟩
        · exact absurd hname (hfresh d' hmem)
        · exact hbound.symm.trans hbound'
    · rw [if_neg hnew, h.visible]
      constructor
      · rintro ⟨d', hmem, hd'⟩
        exact ⟨d', .inl hmem, hd'⟩
      · rintro ⟨d', hmem | rfl, hname, hbound', hpublic⟩
        · exact ⟨d', hmem, hname, hbound', hpublic⟩
        · exact absurd ⟨hpublic, hname.symm⟩ hnew

end ClassInfo.Has

/-- Symbols and the definitions that they are bound to have the same of what the two agree on. -/
theorem map_eq_of_bindings {α β : Type} {bound : α → Option SymbolId} {f : SymbolId → β} {g : α → β}
    {ids : List SymbolId} {defs : List α} (hids : ids.map some = defs.map bound)
    (hsame : ∀ d ∈ defs, ∀ x, bound d = some x → f x = g d) : ids.map f = defs.map g := by
  induction defs generalizing ids with
  | nil =>
    obtain rfl : ids = [] := by simpa using hids
    rfl
  | cons d rest ih =>
    cases ids with
    | nil => simp at hids
    | cons x ids =>
      obtain ⟨hx, hrest⟩ := List.cons.inj hids
      rw [List.map_cons, List.map_cons, hsame d (.head _) x hx.symm,
        ih hrest fun d hd => hsame d (List.mem_cons_of_mem _ hd)]

/-- The field is declared in the class as it is written. -/
structure FieldDef.DeclaredAt (b : Bindings) (cls : SymbolId) (field : FieldDef) (x : SymbolId) :
    Prop where
  bound : field.binding = some x
  kind : b.table.kind? x = some (.field cls field.modifiers)
  type : field.type.resolve b.scope b.builtins = .ok (b.table.typeOf x)

structure ParamDef.DeclaredAt (b : Bindings) (param : ParamDef) (x : SymbolId) : Prop where
  bound : param.binding = some x
  kind : b.table.kind? x = some .param
  type : param.type.resolve b.scope b.builtins = .ok (b.table.typeOf x)

/-- The method is declared in the class as it is written, with its parameters in order. -/
structure MethodDef.DeclaredAt (b : Bindings) (cls : SymbolId) (method : MethodDef) (m : SymbolId)
    (params : List SymbolId) : Prop where
  bound : method.binding = some m
  kind : b.table.kind? m = some (.method { owner := cls, modifiers := method.modifiers, params })
  type : method.returnType.resolve b.scope b.builtins = .ok (b.table.typeOf m)
  params : List.Forall₂ (ParamDef.DeclaredAt b) method.params params

/-- The class and its members are declared as they are written. -/
structure ClassDef.DeclaredAt (b : Bindings) (cls : ClassDef) (c : SymbolId) : Prop where
  bound : cls.binding = some c
  name : b.table.nameOf c = cls.name
  info : ∃ info, b.table.kind? c = some (.cls info) ∧ info.Has cls.members
  order : ∀ info, b.table.kind? c = some (.cls info) →
    info.fields.map some = cls.fields.map (·.binding)
  fields : ∀ field ∈ cls.fields, ∃ x, field.DeclaredAt b c x
  methods : ∀ method ∈ cls.methods, ∃ m params, method.DeclaredAt b c m params

/-- A declared field is static in the signature if and only if its modifiers say so. -/
theorem ClassDef.DeclaredAt.isStatic_eq {b : Bindings} {cls : ClassDef} {c x : SymbolId}
    (h : cls.DeclaredAt b c) {field : FieldDef} (hmem : field ∈ cls.fields)
    (hbound : field.binding = some x) :
    b.table.signature.isStatic x = field.modifiers.isStatic := by
  obtain ⟨y, hy⟩ := h.fields field hmem
  obtain rfl := Option.some.inj (hbound.symm.trans hy.bound)
  exact b.table.signature.isStatic_of_field hy.kind

/-- The names of classes in force are those of these classes, all of which are declared. No
other class and no other method is. -/
structure Bindings.Describes (b : Bindings) (classes : List ClassDef) : Prop where
  builtins : b.builtins = Bindings.initial.builtins
  order : b.table.classes.map some = classes.map (·.binding)
  methods : ∀ m, b.table.isMethod m = true →
    ∃ cls ∈ classes, ∃ method ∈ cls.methods, method.binding = some m
  nodup : (classes.map (·.name)).Nodup
  names : ∀ name c, b.scope.classes.get? name = some c ↔
    ∃ cls ∈ classes, cls.name = name ∧ cls.binding = some c
  declared : ∀ cls ∈ classes, ∃ c, cls.DeclaredAt b c

/-- More names of classes do not change what a written type denotes. -/
theorem TypeExpr.resolve_mono {scope scope' : Scope} {builtins : Builtins} {type : TypeExpr} {ty : Ty}
    (hclasses : ∀ name c, scope.classes.get? name = some c → scope'.classes.get? name = some c)
    (hresolve : type.resolve scope builtins = .ok ty) : type.resolve scope' builtins = .ok ty := by
  induction type generalizing ty with
  | named span name =>
    unfold resolve Scope.class? at hresolve ⊢
    cases hget : scope.classes.get? name with
    | none => simp [hget] at hresolve
    | some c =>
      rw [hget] at hresolve
      rw [hclasses name c hget]
      exact hresolve
  | array span elem ih =>
    unfold resolve at hresolve ⊢
    cases helem : elem.resolve scope builtins with
    | error fatal => simp [helem, Except.map] at hresolve
    | ok elemTy =>
      rw [helem] at hresolve
      rw [ih helem]
      exact hresolve
  | _ => exact hresolve

/-- New names and declarations leave the classes and all other declarations in place. -/
structure Bindings.Grows (before after : Bindings) : Prop where
  extends_ : before.table.Extends after.table
  names : ∀ x kind, before.table.kind? x = some kind →
    after.table.nameOf x = before.table.nameOf x
  builtins : after.builtins = before.builtins
  classes : ∀ name c, before.scope.classes.get? name = some c →
    after.scope.classes.get? name = some c

namespace Bindings.Grows

variable {before after : Bindings}

theorem resolve (h : before.Grows after) {type : TypeExpr} {ty : Ty}
    (hresolve : type.resolve before.scope before.builtins = .ok ty) :
    type.resolve after.scope after.builtins = .ok ty := by
  rw [h.builtins]
  exact TypeExpr.resolve_mono h.classes hresolve

theorem field (h : before.Grows after) {cls x : SymbolId} {field : FieldDef}
    (hfield : field.DeclaredAt before cls x) : field.DeclaredAt after cls x where
  bound := hfield.bound
  kind := h.extends_.kept x _ hfield.kind nofun
  type := by
    rw [h.extends_.typeOf x _ hfield.kind]
    exact h.resolve hfield.type

theorem param (h : before.Grows after) {x : SymbolId} {param : ParamDef}
    (hparam : param.DeclaredAt before x) : param.DeclaredAt after x where
  bound := hparam.bound
  kind := h.extends_.kept x _ hparam.kind nofun
  type := by
    rw [h.extends_.typeOf x _ hparam.kind]
    exact h.resolve hparam.type

/-- A method stays declared as its class and its parameters say when the tables grow. -/
theorem method (h : before.Grows after) {cls m : SymbolId} {method : MethodDef}
    {params : List SymbolId} (hmethod : method.DeclaredAt before cls m params) :
    method.DeclaredAt after cls m params where
  bound := hmethod.bound
  kind := h.extends_.kept m _ hmethod.kind nofun
  type := by
    rw [h.extends_.typeOf m _ hmethod.kind]
    exact h.resolve hmethod.type
  params := hmethod.params.imp fun _ _ => h.param

/-- A class stays declared when the tables grow, as long as its own entry is not changed. -/
theorem cls (h : before.Grows after) {cls : ClassDef} {c : SymbolId}
    (hcls : cls.DeclaredAt before c)
    (hsame : ∀ info, before.table.kind? c = some (.cls info) → after.table.kind? c = some (.cls info)) :
    cls.DeclaredAt after c := by
  obtain ⟨info, hkind, hinfo⟩ := hcls.info
  refine ⟨hcls.bound, (h.names c _ hkind).trans hcls.name, ⟨info, hsame info hkind, hinfo⟩,
    fun info' hkind' => ?_, fun field hmem => ?_, fun method hmem => ?_⟩
  · rw [hsame info hkind] at hkind'
    obtain rfl := SymbolKind.cls.inj (Option.some.inj hkind')
    exact hcls.order info hkind
  · obtain ⟨x, hx⟩ := hcls.fields field hmem
    exact ⟨x, h.field hx⟩
  · obtain ⟨m, params, hm⟩ := hcls.methods method hmem
    exact ⟨m, params, h.method hm⟩

/-- Where no class changes, the classes stay declared. -/
theorem describes (h : before.Grows after) {classes : List ClassDef}
    (hclasses : before.Describes classes) (hnames : after.scope.classes = before.scope.classes)
    (horder : after.table.classes = before.table.classes)
    (hmethods : ∀ m, after.table.isMethod m = true → before.table.isMethod m = true)
    (hsame : ∀ c info, before.table.kind? c = some (.cls info) →
      after.table.kind? c = some (.cls info)) : after.Describes classes where
  builtins := h.builtins.trans hclasses.builtins
  order := horder ▸ hclasses.order
  methods := fun m hmethod => hclasses.methods m (hmethods m hmethod)
  nodup := hclasses.nodup
  names := by
    intro name c
    rw [hnames, hclasses.names]
  declared := by
    intro cls hmem
    obtain ⟨c, hcls⟩ := hclasses.declared cls hmem
    exact ⟨c, h.cls hcls (hsame c)⟩

end Bindings.Grows

/-- One more member of a class, whatever comes with it. -/
structure SymbolTable.AddsMember (before after : SymbolTable) (cls : SymbolId) (name : String)
    (kind : SymbolKind) (ty : Ty) : Prop where
  extends_ : before.Extends after
  names : ∀ x kind, before.kind? x = some kind → after.nameOf x = before.nameOf x
  new : after.kind? before.nextId = some kind
  typeOf : after.typeOf before.nextId = ty
  member : ∀ info, before.kind? cls = some (.cls info) →
    after.kind? cls = some (.cls (info.withMember name kind before.nextId))
  others : ∀ c info, before.kind? c = some (.cls info) → c ≠ cls →
    after.kind? c = some (.cls info)
  classes : after.classes = before.classes
  methods : ∀ m, after.isMethod m = true →
    before.isMethod m = true ∨ m = before.nextId ∧ kind.isMethod = true

namespace Bindings.Describes

variable {b b' : Bindings} {classes pre post : List ClassDef} {cls cls' : ClassDef} {c : SymbolId}

/-- Different classes have different symbols. -/
theorem name_eq (h : b.Describes classes) (hmem : cls ∈ classes) (hmem' : cls' ∈ classes)
    (hbound : cls.binding = some c) (hbound' : cls'.binding = some c) : cls.name = cls'.name := by
  obtain ⟨c₁, hcls⟩ := h.declared cls hmem
  obtain ⟨c₂, hcls'⟩ := h.declared cls' hmem'
  obtain rfl := Option.some.inj (hcls.bound.symm.trans hbound)
  obtain rfl := Option.some.inj (hcls'.bound.symm.trans hbound')
  exact hcls.name.symm.trans hcls'.name

theorem eq_of_name (h : b.Describes classes) (hmem : cls ∈ classes) (hmem' : cls' ∈ classes)
    (hname : cls.name = cls'.name) : cls = cls' :=
  List.inj_on_of_nodup_map h.nodup hmem hmem' hname

/-- A symbol of a class in the table is that of a class that is written. -/
theorem exists_of_mem_classes (h : b.Describes classes) (hmem : c ∈ b.table.classes) :
    ∃ cls ∈ classes, cls.DeclaredAt b c := by
  have hbound : some c ∈ classes.map (·.binding) := h.order ▸ List.mem_map_of_mem hmem
  obtain ⟨cls, hcls, hbound⟩ := List.mem_map.1 hbound
  obtain ⟨c', hc⟩ := h.declared cls hcls
  obtain rfl := Option.some.inj (hbound.symm.trans hc.bound)
  exact ⟨cls, hcls, hc⟩

theorem mem_classes (h : b.Describes classes) (hmem : cls ∈ classes) (hc : cls.DeclaredAt b c) :
    c ∈ b.table.classes := by
  have hbound : some c ∈ b.table.classes.map some := by
    rw [h.order, ← hc.bound]
    exact List.mem_map_of_mem hmem
  simpa using hbound

/-- A new member of one of the classes is declared like the ones before it. -/
theorem addMember (h : b.Describes (pre ++ cls :: post)) {d : MemberDef} {kind : SymbolKind} {ty : Ty}
    (hbound : cls.binding = some c) (hadds : b.table.AddsMember b'.table c d.name kind ty)
    (hbuiltins : b'.builtins = b.builtins) (hclasses : b'.scope.classes = b.scope.classes)
    (hfresh : ∀ d' ∈ cls.members, d'.name ≠ d.name) (hd : d.binding = some b.table.nextId)
    (hmodifiers : kind.modifiers? = some d.modifiers) (hname : cls'.name = cls.name)
    (hbound' : cls'.binding = some c)
    (hmembers : cls'.members = cls.members ++ [d])
    (horder : cls'.fields.map (·.binding) =
      cls.fields.map (·.binding) ++ if kind.isField then [d.binding] else [])
    (hkept : ∀ method ∈ cls.methods, method ∈ cls'.methods)
    (hnew : kind.isMethod = true → ∃ method ∈ cls'.methods, method.binding = d.binding)
    (hfields : ∀ field ∈ cls'.fields, field ∈ cls.fields ∨ ∃ x, field.DeclaredAt b' c x)
    (hmethods : ∀ method ∈ cls'.methods, method ∈ cls.methods ∨
      ∃ m params, method.DeclaredAt b' c m params) : b'.Describes (pre ++ cls' :: post) := by
  have hgrows : b.Grows b' :=
    ⟨hadds.extends_, hadds.names, hbuiltins, fun name c => by rw [hclasses]; exact id⟩
  have hmem : cls ∈ pre ++ cls :: post := by simp
  have hother : ∀ other ∈ pre ++ post, other.name ≠ cls.name := by
    intro other hin heq
    have hnodup := h.nodup
    rw [List.map_append, List.map_cons, List.nodup_middle, List.nodup_cons, ← List.map_append] at hnodup
    exact hnodup.1 (heq ▸ List.mem_map_of_mem hin)
  refine ⟨hbuiltins.trans h.builtins, ?_, fun m hmethod => ?_, by simpa [hname] using h.nodup,
    fun name x => ?_, fun other hin => ?_⟩
  · rw [hadds.classes, h.order]
    simp [hbound, hbound']
  · obtain hold | ⟨rfl, hkind⟩ := hadds.methods m hmethod
    · obtain ⟨other, hin, method, hin', hm⟩ := h.methods m hold
      simp only [List.mem_append, List.mem_cons] at hin ⊢
      obtain hin | rfl | hin := hin
      · exact ⟨other, .inl hin, method, hin', hm⟩
      · exact ⟨cls', .inr (.inl rfl), method, hkept method hin', hm⟩
      · exact ⟨other, .inr (.inr hin), method, hin', hm⟩
    · obtain ⟨method, hin, hm⟩ := hnew hkind
      exact ⟨cls', by simp, method, hin, hm.trans hd⟩
  · rw [hclasses, h.names]
    simp only [List.mem_append, List.mem_cons]
    constructor
    · rintro ⟨other, hin | rfl | hin, hfound⟩
      · exact ⟨other, .inl hin, hfound⟩
      · exact ⟨cls', .inr (.inl rfl), by rw [hname, hbound', ← hbound]; exact hfound⟩
      · exact ⟨other, .inr (.inr hin), hfound⟩
    · rintro ⟨other, hin | rfl | hin, hfound⟩
      · exact ⟨other, .inl hin, hfound⟩
      · exact ⟨cls, .inr (.inl rfl), by rw [← hname, hbound, ← hbound']; exact hfound⟩
      · exact ⟨other, .inr (.inr hin), hfound⟩
  · by_cases heq : other = cls'
    · subst heq
      obtain ⟨x, hcls⟩ := h.declared cls hmem
      obtain rfl := Option.some.inj (hcls.bound.symm.trans hbound)
      obtain ⟨info, hkind, hinfo⟩ := hcls.info
      refine ⟨x, hbound', ?_, ⟨_, hadds.member info hkind, ?_⟩, fun info' hkind' => ?_,
        fun field hfield => ?_, fun method hmethod => ?_⟩
      · rw [hadds.names x _ hkind, hname, hcls.name]
      · rw [hmembers]
        exact hinfo.withMember hfresh hd hmodifiers
      · rw [hadds.member info hkind] at hkind'
        obtain rfl := SymbolKind.cls.inj (Option.some.inj hkind')
        rw [horder, ← hcls.order info hkind, hd]
        cases hfield : kind.isField <;> simp [ClassInfo.withMember, hfield]
      · obtain hfield | hfield := hfields field hfield
        · obtain ⟨y, hy⟩ := hcls.fields field hfield
          exact ⟨y, hgrows.field hy⟩
        · exact hfield
      · obtain hmethod | hmethod := hmethods method hmethod
        · obtain ⟨m, params, hm⟩ := hcls.methods method hmethod
          exact ⟨m, params, hgrows.method hm⟩
        · exact hmethod
    · have hin : other ∈ pre ++ post := by
        simpa [heq] using hin
      have hin' : other ∈ pre ++ cls :: post := by
        obtain hin | hin := List.mem_append.1 hin
        · exact List.mem_append_left _ hin
        · exact List.mem_append_right _ (List.mem_cons_of_mem _ hin)
      obtain ⟨x, hx⟩ := h.declared other hin'
      refine ⟨x, hgrows.cls hx fun info hkind => hadds.others x info hkind ?_⟩
      rintro rfl
      exact hother other hin (h.name_eq hin' hmem hx.bound hbound)

end Bindings.Describes

namespace SymbolTable.AddsMember

variable {table after : SymbolTable} {cls x : SymbolId} {name : String} {kind : SymbolKind} {ty : Ty}
  {span : Span} {strict : Bool}

theorem nameOf_congr {table table' : SymbolTable} {x : SymbolId} (hget : table'.get? x = table.get? x) :
    table'.nameOf x = table.nameOf x := by
  simp [nameOf, hget]

theorem nameOf_insertMember (hold : x ≠ table.nextId) :
    (table.insertMember cls name kind ty span).nameOf x = table.nameOf x := by
  unfold nameOf insertMember
  rw [map_get?_modify fun symbol => symbol.withMember_name _ _ _, get?_add, if_neg hold]

theorem nameOf_setParams {m x : SymbolId} {params : List SymbolId} :
    (table.setParams m params).nameOf x = table.nameOf x := by
  unfold nameOf setParams
  rw [map_get?_modify fun symbol => symbol.withParams_name _]

/-- Inserting a member adds exactly this member to its class. -/
theorem insertMember {info : ClassInfo} (hcls : table.kind? cls = some (.cls info)) (name : String)
    (kind : SymbolKind) (hmember : kind.isClass = false) (ty : Ty) (span : Span) :
    table.AddsMember (table.insertMember cls name kind ty span) cls name kind ty where
  extends_ := .insertMember hcls
  names := fun x found hkind => nameOf_insertMember (ne_nextId hkind)
  new := by rw [kind?_insertMember hcls, if_pos rfl]
  typeOf := by rw [typeOf_insertMember, if_pos rfl]
  member := by
    intro info' hcls'
    rw [kind?_insertMember hcls', if_neg (ne_nextId hcls'), if_pos rfl]
  others := by
    intro c info' hkind hne
    rw [kind?_insertMember hcls, if_neg (ne_nextId hkind), if_neg hne, hkind]
  classes := by simp [SymbolTable.insertMember, add, modify, hmember]
  methods := by
    intro m hmethod
    obtain ⟨info', hkind⟩ := (signature _).isMethod_iff.1 hmethod
    obtain ⟨heq, rfl⟩ | ⟨-, hclass⟩ | ⟨-, hkind⟩ := insertMember_cases hcls hkind
    · exact .inr ⟨heq, rfl⟩
    · cases hclass
    · exact .inl ((signature _).isMethod_iff.2 ⟨info', hkind⟩)

/-- The parameters of a new method come after it. -/
theorem setParams {mid : SymbolTable} {modifiers : Modifiers}
    (h : table.AddsMember mid cls name (.method { owner := cls, modifiers }) ty)
    (hadds : mid.AddsVariables .param strict after) (params : List SymbolId) :
    table.AddsMember (after.setParams table.nextId params) cls name
      (.method { owner := cls, modifiers, params }) ty := by
  have hmethod := hadds.kind?_eq_some h.new
  have hkept : ∀ x found, mid.kind? x = some found → x ≠ table.nextId →
      (after.setParams table.nextId params).kind? x = some found := by
    intro x found hkind hne
    rw [kind?_setParams hmethod, if_neg hne, hadds.kind?_eq_some hkind]
  refine ⟨(h.extends_.trans hadds.extends).setParams kind?_nextId hmethod, ?_, ?_, ?_, ?_, ?_, ?_, ?_⟩
  · intro x found hkind
    obtain ⟨found', hkind'⟩ := h.extends_.isSome hkind
    rw [nameOf_setParams, nameOf_congr (hadds.kept x (lt_size_of_kind? hkind')), h.names x found hkind]
  · rw [kind?_setParams hmethod, if_pos rfl]
  · rw [typeOf_setParams, hadds.typeOf_eq h.new, h.typeOf]
  · exact fun info hcls => hkept cls _ (h.member info hcls) (ne_nextId hcls)
  · exact fun c info hkind hne => hkept c _ (h.others c info hkind hne) (ne_nextId hkind)
  · exact hadds.classes.trans h.classes
  · intro m hm
    by_cases heq : m = table.nextId
    · exact .inr ⟨heq, rfl⟩
    · obtain ⟨info, hkind⟩ := (signature _).isMethod_iff.1 hm
      rw [signature_kind?, kind?_setParams hmethod, if_neg heq, hadds.kind?_method_iff] at hkind
      exact (h.methods m ((signature _).isMethod_iff.2 ⟨info, hkind⟩)).imp_right
        fun hnew => absurd hnew.1 heq

end SymbolTable.AddsMember

/-- Variables change no class. -/
theorem SymbolTable.AddsVariables.grows {kind : SymbolKind} {strict : Bool} {before after : Bindings}
    (h : before.table.AddsVariables kind strict after.table) (hbuiltins : after.builtins = before.builtins)
    (hclasses : after.scope.classes = before.scope.classes) : before.Grows after where
  extends_ := h.extends
  names := fun x _ hkind => AddsMember.nameOf_congr (h.kept x (lt_size_of_kind? hkind))
  builtins := hbuiltins
  classes := fun name c => by
    rw [hclasses]
    exact id

/-- Adding variables to the table does not change which classes are described. -/
theorem SymbolTable.AddsVariables.describes {kind : SymbolKind} {strict : Bool}
    {before after : Bindings} (h : before.table.AddsVariables kind strict after.table)
    (hbuiltins : after.builtins = before.builtins)
    (hclasses : after.scope.classes = before.scope.classes) {classes : List ClassDef}
    (hdescribes : before.Describes classes) : after.Describes classes :=
  (h.grows hbuiltins hclasses).describes hdescribes hclasses h.classes
    (fun m hmethod => by
      obtain ⟨info, hkind⟩ := (SymbolTable.signature _).isMethod_iff.1 hmethod
      exact (SymbolTable.signature _).isMethod_iff.2 ⟨info, h.kind?_method_iff.1 hkind⟩)
    fun _ _ => h.kind?_eq_some

end SmallJava
