import SmallJava.Proofs.Acceptance.Passes
import SmallJava.Proofs.Acceptance.Rules
import SmallJava.Proofs.Analysis.Erase
import SmallJava.Proofs.Declaration.Declare
import SmallJava.Proofs.Declaration.Declared

namespace SmallJava

open Walk

/-- A written type that denotes a type is resolved where its classes are in force. -/
theorem TypeExpr.exists_resolve {classes : List Source.ClassSig} {scope : Scope} {builtins : Builtins}
    (hclasses : ∀ sig ∈ classes, ∃ c, scope.class? sig.name = some c)
    (hstring : ∃ c, scope.class? "String" = some c) {type : TypeExpr} {τ : Source.Ty}
    (h : Source.Denotes classes type τ) : ∃ ty, type.resolve scope builtins = .ok ty := by
  induction h with
  | int | boolean | void => exact ⟨_, rfl⟩
  | string =>
    obtain ⟨c, hc⟩ := hstring
    exact ⟨builtins.instanceTy c, by simp [resolve, hc]⟩
  | object hcls =>
    obtain ⟨c, hc⟩ := hclasses _ hcls
    exact ⟨builtins.instanceTy c, by simp [resolve, hc]⟩
  | array _ ih =>
    obtain ⟨ty, hty⟩ := ih
    exact ⟨.array ty, by simp [resolve, hty, Except.map]⟩

/-- The classes that the rules know are in force. -/
structure Bindings.Names (b : Bindings) (classes : List Source.ClassSig) : Prop where
  classes : ∀ sig ∈ classes, ∃ c, b.scope.class? sig.name = some c
  string : ∃ c, b.scope.class? "String" = some c

namespace Bindings.Names

variable {b b' : Bindings} {classes : List Source.ClassSig}

theorem resolve (h : b.Names classes) {type : TypeExpr} {τ : Source.Ty}
    (hdenotes : Source.Denotes classes type τ) : ∃ ty, type.resolve b.scope b.builtins = .ok ty :=
  TypeExpr.exists_resolve h.classes h.string hdenotes

theorem congr (h : b.Names classes) (hsame : b'.scope.classes = b.scope.classes) :
    b'.Names classes := by
  obtain ⟨hclasses, hstring⟩ := h
  unfold Scope.class? at hclasses hstring
  rw [← hsame] at hclasses hstring
  exact ⟨hclasses, hstring⟩

/-- Described classes are in force by their names. -/
theorem of_describes {decls : List ClassDef} (h : b.Describes decls)
    (hnames : decls.map (·.name) = classes.map (·.name)) (hstring : "String" ∈ classes.map (·.name)) :
    b.Names classes := by
  have hfound : ∀ name ∈ classes.map (·.name), ∃ c, b.scope.class? name = some c := by
    intro name hmem
    rw [← hnames] at hmem
    obtain ⟨cls, hcls, rfl⟩ := List.mem_map.1 hmem
    obtain ⟨c, hdeclared⟩ := h.declared cls hcls
    exact ⟨c, (h.names cls.name c).2 ⟨cls, hcls, rfl, hdeclared.bound⟩⟩
  exact ⟨fun sig hsig => hfound _ (List.mem_map_of_mem hsig), hfound _ hstring⟩

end Bindings.Names

/-- A declaration is accepted when its type resolves and its name is free; the table then has one
    more entry. -/
theorem Walk.declareTyped_accepts {ν : Type} (node : ν) (type : TypeExpr)
    (declare : SymbolTable → Ty → Except Diagnostic SymbolTable) :
    (declareTyped node type declare).Accepts fun before x after => ∃ ty table,
      type.resolve before.scope before.builtins = .ok ty ∧ declare before.table ty = .ok table ∧
        x = before.table.nextId ∧ after = { before with table } := by
  refine (accepts_get.bind fun bindings => (accepts_lift Check.accepts_orAbort).bind fun ty =>
    (accepts_lift Check.accepts_orAbort).bind fun table => accepts_set.bind fun _ =>
      accepts_pure).congr fun before x after => ?_
  constructor
  · rintro ⟨_, _, ⟨rfl, rfl⟩, ty, _, ⟨hresolve, rfl⟩, table, _, ⟨hdeclare, rfl⟩, _, _, rfl, rfl, rfl⟩
    exact ⟨ty, table, hresolve, hdeclare, rfl, rfl⟩
  · rintro ⟨ty, table, hresolve, hdeclare, rfl, rfl⟩
    exact ⟨_, _, ⟨rfl, rfl⟩, ty, _, ⟨hresolve, rfl⟩, table, _, ⟨hdeclare, rfl⟩, .unit, _, rfl, rfl, rfl⟩

section Members

variable {pre post : List ClassDef} {base : ClassDef} {c : SymbolId} {classes : List Source.ClassSig}
  {b : Bindings}

/-- A class admits a member with a new name. -/
theorem Bindings.Describes.declareMember (h : b.Describes (pre ++ base :: post))
    (hbound : base.binding = some c) (className : String) {name : String} (kind : SymbolKind)
    (hmember : (kind.isField || kind.isMethod) = true)
    (hfresh : ∀ d ∈ base.members, d.name ≠ name) (span : Span) (ty : Ty) :
    ∃ table, SymbolTable.declareMember c className name kind span b.table ty = .ok table := by
  obtain ⟨c', hdeclared⟩ := h.declared base (by simp)
  obtain rfl := Option.some.inj (hdeclared.bound.symm.trans hbound)
  obtain ⟨info, hinfo, -⟩ := hdeclared.info
  exact ⟨_, (SymbolTable.declareMember_eq_ok_iff hmember).2
    ⟨info, hinfo, (h.fresh hbound hinfo).2 hfresh, rfl⟩⟩

namespace FieldDef

theorem declare_appends (c : SymbolId) (className : String) (field : FieldDef) (b : Bindings) :
    (field.declare c className b).Ensures fun _ => True :=
  (declare_ensures false c className field b).appends

/-- A field with a new name and a type that exists is declared. -/
theorem exists_declare (hbound : base.binding = some c) (className : String)
    {done : List FieldDef} {field : FieldDef}
    (h : b.Describes (pre ++ { base with fields := done, methods := [] } :: post))
    (hnames : b.Names classes) {τ : Source.Ty} (hdenotes : Source.Denotes classes field.type τ)
    (hfresh : ∀ other ∈ done, other.name ≠ field.name) :
    ∃ field' after, (field.declare c className).Passes b field' after ∧ field'.name = field.name ∧
      after.scope = b.scope := by
  obtain ⟨ty, hresolve⟩ := hnames.resolve hdenotes
  have hmembers : ∀ d ∈ ClassDef.members { base with fields := done, methods := [] },
      d.name ≠ field.name := by
    intro d hd
    obtain ⟨other, hother, rfl⟩ : ∃ other ∈ done, other.member = d := by
      simpa [ClassDef.members] using hd
    exact hfresh other hother
  obtain ⟨table, htable⟩ := h.declareMember hbound className (.field c field.modifiers) rfl
    hmembers field.span ty
  exact ⟨_, _, (((declareTyped_accepts field field.type _).bind fun x => accepts_pure).iff b _ _).2
    ⟨_, _, ⟨ty, table, hresolve, htable, rfl, rfl⟩, rfl, rfl⟩, rfl, rfl⟩

/-- Fields with different names and types that exist are declared. -/
theorem exists_declareAll (hbound : base.binding = some c) (className : String)
    {fields : List FieldDef} (h : b.Describes (pre ++ { base with fields := [], methods := [] } :: post))
    (hnames : b.Names classes) (hnodup : (fields.map (·.name)).Nodup)
    (hdenote : ∀ field ∈ fields, ∃ τ, Source.Denotes classes field.type τ) :
    ∃ fields' after, (each (declare c className) fields).Passes b fields' after := by
  refine passes_each (declare_appends c className) (fun done rest b =>
    b.Describes (pre ++ { base with fields := done, methods := [] } :: post) ∧ b.Names classes ∧
      ((done ++ rest).map (·.name)).Nodup ∧
        ∀ field ∈ rest, ∃ τ, Source.Denotes classes field.type τ) ?_ fields [] b
          ⟨h, hnames, hnodup, hdenote⟩
  rintro done field rest b ⟨h, hnames, hnodup, hdenote⟩
  obtain ⟨τ, hfield⟩ := hdenote field List.mem_cons_self
  have hfresh : ∀ other ∈ done, other.name ≠ field.name := by
    rw [List.map_append, List.map_cons, List.nodup_append] at hnodup
    exact fun other hmem => hnodup.2.2 _ (List.mem_map_of_mem hmem) _ List.mem_cons_self
  obtain ⟨field', after, hpasses, hname, hscope⟩ :=
    exists_declare hbound className h hnames hfield hfresh
  refine ⟨field', after, hpasses,
    (declare_yields base hbound className done field b h).ok hpasses,
    hnames.congr (congrArg Scope.classes hscope), by simpa [hname] using hnodup,
    fun other hmem => hdenote other (List.mem_cons_of_mem _ hmem)⟩

end FieldDef

namespace ParamDef

theorem declare_appends (param : ParamDef) (b : Bindings) : (param.declare b).Ensures fun _ => True :=
  (declare_ensures false param b).appends

/-- Parameters with types that exist are declared. -/
theorem exists_declareAll {params : List ParamDef} (hnames : b.Names classes)
    (hdenote : ∀ param ∈ params, ∃ τ, Source.Denotes classes param.type τ) :
    ∃ params' after, (each declare params).Passes b params' after := by
  refine passes_each declare_appends (fun _ rest b =>
    b.Names classes ∧ ∀ param ∈ rest, ∃ τ, Source.Denotes classes param.type τ) ?_ params [] b
      ⟨hnames, hdenote⟩
  rintro - param rest b ⟨hnames, hdenote⟩
  obtain ⟨τ, hparam⟩ := hdenote param List.mem_cons_self
  obtain ⟨ty, hresolve⟩ := hnames.resolve hparam
  exact ⟨_, _, (((declareTyped_accepts param param.type _).bind fun x => accepts_pure).iff b _ _).2
    ⟨_, _, ⟨ty, _, hresolve, rfl, rfl, rfl⟩, rfl, rfl⟩, hnames.congr rfl,
    fun other hmem => hdenote other (List.mem_cons_of_mem _ hmem)⟩

end ParamDef

/-- All types that a method declares exist. -/
structure Source.Declarable (classes : List ClassSig) (method : MethodDef) : Prop where
  returnType : ∃ τ, Denotes classes method.returnType τ
  params : ∀ param ∈ method.params, ∃ τ, Denotes classes param.type τ

namespace MethodDef

theorem declare_appends (c : SymbolId) (className : String) (method : MethodDef) (b : Bindings) :
    (method.declare c className b).Ensures fun _ => True :=
  (declare_ensures false false c className method b).appends

/-- A method with a new name and types that exist is declared. -/
theorem exists_declare (hbound : base.binding = some c) (className : String)
    {done : List MethodDef} {method : MethodDef}
    (h : b.Describes (pre ++ { base with methods := done } :: post))
    (hnames : b.Names classes) (hdeclarable : Source.Declarable classes method)
    (hfresh : ∀ d ∈ ClassDef.members { base with methods := done }, d.name ≠ method.name) :
    ∃ method' after, (method.declare c className).Passes b method' after ∧
      method'.name = method.name ∧ after.scope = b.scope := by
  obtain ⟨τ, hreturn⟩ := hdeclarable.returnType
  obtain ⟨ty, hresolve⟩ := hnames.resolve hreturn
  obtain ⟨table, htable⟩ := h.declareMember hbound className
    (.method { owner := c, modifiers := method.modifiers }) rfl hfresh method.span ty
  have hstart : Bindings.Names { b with table } classes := hnames.congr rfl
  obtain ⟨params, mid, hparams⟩ := ParamDef.exists_declareAll hstart hdeclarable.params
  have hscope := ((ParamDef.declareAll_yields method.params { b with table } _ rfl).ok hparams).scope
  have haccepts : (each ParamDef.declare method.params).Accepts _ :=
    accepts_passes (ParamDef.declareAll_ensures false method.params)
  refine ⟨_, _, (((declareTyped_accepts method method.returnType _).bind fun x =>
    (haccepts.within _).bind fun params => accepts_modify.bind fun _ => accepts_pure).iff b _ _).2
      ⟨_, _, ⟨ty, table, hresolve, htable, rfl, rfl⟩, params, mid, hparams, .unit, _, rfl, rfl, rfl⟩,
      rfl, hscope⟩

/-- Methods with different names and types that exist are declared. -/
theorem exists_declareAll (hbound : base.binding = some c) (className : String)
    {methods : List MethodDef} (h : b.Describes (pre ++ { base with methods := [] } :: post))
    (hnames : b.Names classes)
    (hnodup : (base.fields.map (·.name) ++ methods.map (·.name)).Nodup)
    (hdeclarable : ∀ method ∈ methods, Source.Declarable classes method) :
    ∃ methods' after, (each (declare c className) methods).Passes b methods' after := by
  refine passes_each (declare_appends c className) (fun done rest b =>
    b.Describes (pre ++ { base with methods := done } :: post) ∧ b.Names classes ∧
      (base.fields.map (·.name) ++ (done ++ rest).map (·.name)).Nodup ∧
        ∀ method ∈ rest, Source.Declarable classes method) ?_ methods [] b
          ⟨h, hnames, hnodup, hdeclarable⟩
  rintro done method rest b ⟨h, hnames, hnodup, hdeclarable⟩
  have hfresh : ∀ d ∈ ClassDef.members { base with methods := done }, d.name ≠ method.name := by
    intro d hd heq
    have hold : d.name ∈ base.fields.map (·.name) ++ done.map (·.name) := by
      have hname := List.mem_map_of_mem (f := (·.name)) hd
      simpa [ClassDef.members, FieldDef.member, MethodDef.member, Function.comp_def] using hname
    rw [List.map_append, ← List.append_assoc, List.map_cons, List.nodup_append] at hnodup
    exact hnodup.2.2 _ hold _ List.mem_cons_self heq
  obtain ⟨method', after, hpasses, hname, hscope⟩ := exists_declare hbound className h
    hnames (hdeclarable method List.mem_cons_self) hfresh
  refine ⟨method', after, hpasses,
    (declare_yields base hbound className done method b h).ok hpasses,
    hnames.congr (congrArg Scope.classes hscope), by simpa [hname] using hnodup,
    fun other hmem => hdeclarable other (List.mem_cons_of_mem _ hmem)⟩

end MethodDef

end Members

/-- All types that the members of a class declare exist, and their names are different. -/
structure Source.DeclarableClass (classes : List ClassSig) (cls : ClassDef) : Prop where
  members : cls.sig.memberNames.Nodup
  fields : ∀ field ∈ cls.fields, ∃ τ, Denotes classes field.type τ
  methods : ∀ method ∈ cls.methods, Declarable classes method

namespace ClassDef

variable {pre post : List ClassDef} {cls : ClassDef} {classes : List Source.ClassSig} {b : Bindings}

theorem memberNames_sig (cls : ClassDef) :
    cls.sig.memberNames = cls.fields.map (·.name) ++ cls.methods.map (·.name) := by
  simp [Source.ClassSig.memberNames, sig, FieldDef.sig, MethodDef.sig, Function.comp_def]

theorem declareMembers_appends (cls : ClassDef) (b : Bindings) :
    (cls.declareMembers b).Ensures fun _ => True :=
  (declareMembers_ensures false false cls b).appends

/-- The members of a class are declared if they have different names and types that exist. -/
theorem exists_declareMembers (h : b.Describes (pre ++ cls.bare :: post))
    (hnames : (pre ++ cls :: post).map (·.name) = classes.map (·.name))
    (hstring : "String" ∈ classes.map (·.name))
    (hdeclarable : Source.DeclarableClass classes cls) :
    ∃ cls' after, cls.declareMembers.Passes b cls' after := by
  obtain ⟨c, hdeclared⟩ := h.declared cls.bare (by simp)
  have hbound : cls.binding = some c := hdeclared.bound
  have hnodup := hdeclarable.members
  rw [memberNames_sig] at hnodup
  obtain ⟨fields, mid, hfields⟩ := FieldDef.exists_declareAll hbound cls.name h
    (.of_describes h (by simpa [bare] using hnames) hstring) (List.nodup_append.1 hnodup).1
    hdeclarable.fields
  have hfielded := (FieldDef.declareAll_yields cls hbound cls.name cls.fields b h).ok hfields
  have hnames' : fields.map (·.name) = cls.fields.map (·.name) := by
    have herase := (keeps_each (FieldDef.declare_keeps c cls.name) cls.fields b trivial).ok hfields
    simpa [Function.comp_def, FieldDef.erase] using congrArg (List.map FieldDef.name) herase
  have hbound' : ClassDef.binding { cls with fields } = some c := hbound
  obtain ⟨methods, after, hmethods⟩ := MethodDef.exists_declareAll hbound' cls.name hfielded
    (.of_describes hfielded (by simpa using hnames) hstring)
    (by simpa [hnames'] using hnodup) hdeclarable.methods
  have haccepts : (each (FieldDef.declare c cls.name) cls.fields).Accepts _ :=
    accepts_passes (FieldDef.declareAll_ensures false c cls.name cls.fields)
  have haccepts' : (each (MethodDef.declare c cls.name) cls.methods).Accepts _ :=
    accepts_passes (MethodDef.declareAll_ensures false false c cls.name cls.methods)
  unfold declareMembers
  rw [hbound]
  exact ⟨_, _, (((haccepts.within _).bind fun fields => (haccepts'.within _).bind fun methods =>
    accepts_pure).iff b _ _).2 ⟨fields, mid, hfields, methods, after, hmethods, rfl, rfl⟩⟩

theorem declare_appends (cls : ClassDef) (b : Bindings) : (cls.declare b).Ensures fun _ => True :=
  (declare_ensures false false cls b).appends

/-- A class with a new name is declared. -/
theorem exists_declare {found : List ClassDef} (h : b.Describes found)
    (hfresh : ∀ other ∈ found, other.name ≠ cls.name) :
    ∃ cls' after, cls.declare.Passes b cls' after ∧ cls'.name = cls.name := by
  have hfree : b.scope.classes.contains cls.name = false := by
    unfold Dict.contains
    cases hget : b.scope.classes.get? cls.name with
    | none => rfl
    | some c =>
      obtain ⟨other, hmem, hname, -⟩ := (h.names cls.name c).1 hget
      exact absurd hname (hfresh other hmem)
  obtain ⟨scope, hdeclare⟩ : ∃ scope, b.scope.declareClass? cls.name b.table.nextId = some scope :=
    ⟨_, if_neg (by simp [hfree])⟩
  refine ⟨{ cls with binding := some b.table.nextId },
    { b with table := b.table.addClass cls.name cls.span, scope }, ?_, rfl⟩
  unfold declare
  rw [passes_get_bind]
  dsimp only
  rw [hdeclare]
  exact ((accepts_set.bind fun _ => accepts_pure).iff b _ _).2 ⟨.unit, _, rfl, rfl, rfl⟩

/-- Classes with different names are declared. -/
theorem exists_declareAll {classes : List ClassDef}
    (hnodup : ((Builtins.classDefs ++ classes).map (·.name)).Nodup) :
    ∃ classes' after, (each declare classes).Passes .initial classes' after := by
  refine passes_each declare_appends (fun done rest b =>
    b.Describes (Builtins.classDefs ++ done.map bare) ∧
      ((Builtins.classDefs ++ done.map bare ++ rest).map (·.name)).Nodup) ?_ classes [] .initial
        ⟨by simpa using Bindings.initial_describes, by simpa using hnodup⟩
  rintro done cls rest b ⟨h, hnodup⟩
  have hfresh : ∀ other ∈ Builtins.classDefs ++ done.map bare, other.name ≠ cls.name := by
    rw [List.map_append, List.map_cons, List.nodup_append] at hnodup
    exact fun other hmem => hnodup.2.2 _ (List.mem_map_of_mem hmem) _ List.mem_cons_self
  obtain ⟨cls', after, hpasses, hname⟩ := exists_declare h hfresh
  have hafter := (declare_yields (Builtins.classDefs ++ done.map bare) cls b h).ok hpasses
  exact ⟨cls', after, hpasses, by simpa using hafter, by simpa [hname, bare] using hnodup⟩

/-- The members of classes are declared if they follow the rules for declarations. -/
theorem exists_declareAllMembers {named : List ClassDef} {classes : List Source.ClassSig}
    (h : b.Describes (Builtins.classDefs ++ named.map bare))
    (hnames : (Builtins.classDefs ++ named).map (·.name) = classes.map (·.name))
    (hdeclarable : ∀ cls ∈ named, Source.DeclarableClass classes cls) :
    ∃ declared after, (each declareMembers named).Passes b declared after := by
  have hstring : "String" ∈ classes.map (·.name) := by
    rw [← hnames]
    simp [Builtins.classDefs]
  refine passes_each declareMembers_appends (fun done rest b =>
    b.Describes (Builtins.classDefs ++ done ++ rest.map bare) ∧
      (Builtins.classDefs ++ done ++ rest).map (·.name) = classes.map (·.name) ∧
        ∀ cls ∈ rest, Source.DeclarableClass classes cls) ?_ named [] b
          ⟨by simpa using h, by simpa using hnames, hdeclarable⟩
  rintro done cls rest b ⟨h, hnames, hdeclarable⟩
  rw [List.map_cons] at h
  obtain ⟨cls', after, hpasses⟩ := exists_declareMembers h
    (by simpa [bare, Function.comp_def] using hnames) hstring (hdeclarable cls List.mem_cons_self)
  have hafter := (declareMembers_yields cls b h).ok hpasses
  have herase : cls'.erase = cls.erase := (declareMembers_keeps cls b trivial).ok hpasses
  have hname : cls'.name = cls.name := (ClassDef.mk.inj herase).1
  exact ⟨cls', after, hpasses, by simpa using hafter, by simpa [hname] using hnames,
    fun other hmem => hdeclarable other (List.mem_cons_of_mem _ hmem)⟩

end ClassDef

end SmallJava
