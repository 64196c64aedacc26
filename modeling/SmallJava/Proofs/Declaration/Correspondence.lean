import Mathlib.Data.List.Induction
import SmallJava.Proofs.Declaration.Entries

namespace SmallJava

/-- Of keys that are all different, each has the value that it comes with. -/
theorem Dict.get?_ofList {κ ν : Type} [DecidableEq κ] {entries : List (κ × ν)} {key : κ} {value : ν}
    (hnodup : (entries.map (·.1)).Nodup) (hmem : (key, value) ∈ entries) :
    (ofList entries).get? key = some value := by
  induction entries using List.reverseRecOn with
  | nil => cases hmem
  | append_singleton rest entry ih =>
    rw [List.map_append, List.nodup_append] at hnodup
    obtain ⟨hrest, -, hnew⟩ := hnodup
    have hlast : ofList (rest ++ [entry]) = (ofList rest).insert entry.1 entry.2 := by
      simp [ofList]
    rw [hlast, get?_insert]
    obtain hmem | hmem := List.mem_append.1 hmem
    · rw [if_neg (hnew key (List.mem_map.2 ⟨_, hmem, rfl⟩) entry.1 (by simp))]
      exact ih hrest hmem
    · obtain rfl := List.mem_singleton.1 hmem
      exact if_pos rfl

/-- The declarations of a program, with the names of its classes in force. -/
def Analysis.bindings (analysis : Analysis) : Bindings where
  table := analysis.table
  builtins := analysis.builtins
  scope :=
    { classes := .ofList (analysis.table.classes.map fun cls => (analysis.table.nameOf cls, cls)) }

/-- The declarations of a program and the entries of its table correspond one to one. -/
structure Analysis.Corresponds (analysis : Analysis) (package : Package) : Prop where
  distinct : (package.decls.map (·.binding)).Nodup
  /-- The first seven entries are built in. -/
  bound : ∀ x, some x ∈ package.decls.map (·.binding) ↔ 7 ≤ x.index ∧ x.index < analysis.table.size
  builtins : ∀ decl ∈ Builtins.decls, ∃ x, decl.EnteredAt analysis.bindings x
  entered : ∀ decl ∈ package.decls, ∃ x, decl.EnteredAt analysis.bindings x
  classes : analysis.table.classes.map some =
    [some ⟨0⟩, some ⟨1⟩, some ⟨2⟩] ++ package.classes.map (·.binding)
  classNames : analysis.table.classes.map analysis.table.nameOf =
    ["System", "_PrintStream", "String"] ++ package.classes.map (·.name)
  members : ∀ cls ∈ package.classes, ∃ c info, cls.binding = some c ∧
    analysis.table.kind? c = some (.cls info) ∧
      info.fields.map some = cls.fields.map (·.binding) ∧
        info.methods.map some = cls.methods.map (·.binding)
  params : ∀ cls ∈ package.classes, ∀ method ∈ cls.methods, ∃ m info, method.binding = some m ∧
    analysis.table.kind? m = some (.method info) ∧
      info.params.map some = method.params.map (·.binding)

section Correspondence

variable {b : Bindings} {classes : List ClassDef} {span : Span}

/-- The names in the table are those in force. -/
theorem Bindings.Describes.nameOf (h : b.Describes classes) :
    b.table.classes.map b.table.nameOf = classes.map (·.name) := by
  refine map_eq_of_bindings h.order fun cls hmem c hbound => ?_
  obtain ⟨c', hc'⟩ := h.declared cls hmem
  obtain rfl := Option.some.inj (hbound.symm.trans hc'.bound)
  exact hc'.name

/-- A class that is in scope under a name is found under this name among the classes of the table.
-/
theorem Bindings.Describes.get?_nameOf (h : b.Describes classes) {name : String} {c : SymbolId}
    (hget : b.scope.classes.get? name = some c) :
    (Dict.ofList (b.table.classes.map fun cls => (b.table.nameOf cls, cls))).get? name = some c := by
  obtain ⟨cls, hmem, rfl, hbound⟩ := (h.names name c).1 hget
  have hclass : c ∈ b.table.classes := by
    have hin : some c ∈ b.table.classes.map some := h.order ▸ hbound ▸ List.mem_map_of_mem hmem
    simpa using hin
  obtain ⟨c', hc'⟩ := h.declared cls hmem
  obtain rfl := Option.some.inj (hbound.symm.trans hc'.bound)
  refine Dict.get?_ofList ?_ (List.mem_map.2 ⟨c, hclass, by rw [hc'.name]⟩)
  rw [List.map_map]
  exact h.nameOf ▸ h.nodup

theorem LocalDef.isMethodOf_decl (c : SymbolId) (stmts : List Stmt) :
    (Stmt.declsOf stmts).filter (·.isMethodOf c) = [] := by
  refine List.filter_eq_nil_iff.2 fun decl hmem => ?_
  obtain ⟨stmt, -, hvar⟩ := List.mem_filterMap.1 hmem
  obtain ⟨var, -, rfl⟩ := Option.map_eq_some_iff.1 hvar
  exact Bool.false_ne_true

/-- The methods that are declared with a class are its own. -/
theorem ClassDef.filter_memberDecls {cls : ClassDef} {c : SymbolId} :
    cls.memberDecls.filter (·.isMethodOf c) =
      if cls.binding = some c then cls.methods.map (MethodDef.decl c) else [] := by
  have hfields : ∀ (owner : SymbolId) (fields : List FieldDef),
      (fields.map (FieldDef.decl owner)).filter (·.isMethodOf c) = [] := by
    intro owner fields
    simp [List.filter_eq_nil_iff, FieldDef.decl, Decl.isMethodOf, SymbolKind.isMethod, SymbolKind.method?]
  have hparams : ∀ params : List ParamDef,
      (params.map ParamDef.decl).filter (·.isMethodOf c) = [] := by
    intro params
    simp [List.filter_eq_nil_iff, ParamDef.decl, Decl.isMethodOf, SymbolKind.isMethod, SymbolKind.method?]
  have hmethods : ∀ (owner : SymbolId) (methods : List MethodDef),
      (methods.flatMap (MethodDef.decls owner)).filter (·.isMethodOf c) =
        if owner = c then methods.map (MethodDef.decl owner) else [] := by
    intro owner methods
    induction methods with
    | nil => simp
    | cons method rest ih =>
      have hfirst : (method.decl owner).isMethodOf c = decide (owner = c) := by
        simp [MethodDef.decl, Decl.isMethodOf, SymbolKind.isMethod, SymbolKind.method?, SymbolKind.owner?]
      rw [List.flatMap_cons, List.filter_append, ih, MethodDef.decls, List.filter_cons, hparams, hfirst]
      by_cases heq : owner = c <;> simp [heq]
  unfold memberDecls
  cases cls.binding with
  | none => rfl
  | some owner =>
    dsimp only
    rw [List.filter_append, hfields, hmethods, List.nil_append]
    by_cases heq : owner = c <;> simp [heq]

/-- The methods of a class are those that are declared as its own. -/
theorem Package.filter_decls {package : Package} {cls : ClassDef} {c : SymbolId}
    (hmem : cls ∈ package.classes) (hbound : cls.binding = some c)
    (hnodup : (package.classes.map (·.binding)).Nodup) :
    (package.decls.filter (·.isMethodOf c)).map (·.binding) = cls.methods.map (·.binding) := by
  have hclasses : (package.classes.map ClassDef.decl).filter (·.isMethodOf c) = [] := by
    simp [List.filter_eq_nil_iff, ClassDef.decl, Decl.isMethodOf, SymbolKind.isMethod, SymbolKind.method?]
  have hlocals : (package.classes.flatMap ClassDef.localDecls).filter (·.isMethodOf c) = [] := by
    rw [List.filter_flatMap]
    refine List.flatMap_eq_nil_iff.2 fun other _ => ?_
    rw [ClassDef.localDecls, List.filter_flatMap]
    exact List.flatMap_eq_nil_iff.2 fun method _ => LocalDef.isMethodOf_decl c _
  rw [decls, List.filter_append, List.filter_append, hclasses, hlocals, List.nil_append, List.append_nil,
    List.filter_flatMap]
  simp only [ClassDef.filter_memberDecls]
  -- no other class is bound to the same symbol
  obtain ⟨pre, post, hsplit⟩ := List.append_of_mem hmem
  rw [hsplit, List.map_append, List.map_cons, List.nodup_middle, List.nodup_cons] at hnodup
  have hother : ∀ others : List ClassDef, (∀ other ∈ others, other ∈ pre ++ post) →
      others.flatMap (fun other => if other.binding = some c then
        other.methods.map (MethodDef.decl c) else []) = [] := by
    refine fun others hin => List.flatMap_eq_nil_iff.2 fun other hmem => if_neg fun heq => hnodup.1 ?_
    rw [hbound, ← heq, ← List.map_append]
    exact List.mem_map_of_mem (hin other hmem)
  rw [hsplit, List.flatMap_append, List.flatMap_cons, if_pos hbound,
    hother pre fun _ => List.mem_append_left _, hother post fun _ => List.mem_append_right _]
  simp [Function.comp_def, MethodDef.decl]

/-- Where all is declared and entered, the correspondence is there. -/
theorem Bindings.Inventory.corresponds {package : Package} {analysis : Analysis}
    (h : b.Inventory (Builtins.decls ++ package.decls))
    (hdescribes : b.Describes (Builtins.classDefs ++ package.classes))
    (htable : analysis.table = b.table) (hbuiltins : analysis.builtins = b.builtins) :
    analysis.Corresponds package := by
  have hmono : ∀ decl x, Decl.EnteredAt b decl x → decl.EnteredAt analysis.bindings x := by
    refine fun decl x hentry => hentry.mono hbuiltins (fun name c hget => ?_) ?_
    · unfold Analysis.bindings
      rw [htable]
      exact hdescribes.get?_nameOf hget
    · rw [show analysis.bindings.table = b.table from htable]
  have hbindings := h.bindings
  rw [List.map_append] at hbindings
  have hbuiltin : Builtins.decls.map (·.binding) = (SymbolId.upTo 7).map some := by decide
  have hnodup : (Builtins.decls.map (·.binding) ++ package.decls.map (·.binding)).Nodup := by
    rw [hbindings]
    refine List.Nodup.map (fun _ _ => Option.some.inj) (List.Nodup.map ?_ List.nodup_range)
    exact fun _ _ => SymbolId.mk.inj
  obtain ⟨-, hdistinct, hdisjoint⟩ := List.nodup_append.1 hnodup
  have hbound : ∀ x, some x ∈ package.decls.map (·.binding) ↔
      7 ≤ x.index ∧ x.index < b.table.size := by
    intro x
    have hwhole : some x ∈ Builtins.decls.map (·.binding) ++ package.decls.map (·.binding) ↔
        x.index < b.table.size := by
      rw [hbindings]
      simp
    have hfirst : some x ∈ Builtins.decls.map (·.binding) ↔ x.index < 7 := by
      rw [hbuiltin]
      simp
    rw [← hwhole, List.mem_append, hfirst]
    constructor
    · refine fun hmem => ⟨Nat.le_of_not_lt fun hlt => ?_, .inr hmem⟩
      exact hdisjoint _ (hfirst.2 hlt) _ hmem rfl
    · rintro ⟨hge, hlt | hmem⟩
      · omega
      · exact hmem
  have hentered : ∀ decl ∈ Builtins.decls ++ package.decls, ∃ x, decl.EnteredAt analysis.bindings x := by
    intro decl hmem
    obtain ⟨x, hx⟩ := h.exists_of_mem hmem
    exact ⟨x, hmono decl x hx⟩
  refine ⟨hdistinct, htable ▸ hbound, fun decl hmem => hentered decl (List.mem_append_left _ hmem),
    fun decl hmem => hentered decl (List.mem_append_right _ hmem), ?_, ?_, fun cls hcls => ?_,
    fun cls hcls method hmethod => ?_⟩
  · rw [htable, hdescribes.order, List.map_append]
    rfl
  · rw [htable, hdescribes.nameOf, List.map_append]
    rfl
  · obtain ⟨c, hc⟩ := hdescribes.declared cls (List.mem_append_right _ hcls)
    obtain ⟨info, hkind, -⟩ := hc.info
    refine ⟨c, info, hc.bound, htable ▸ hkind, hc.order info hkind, ?_⟩
    have hwritten : 7 ≤ c.index := by
      refine ((hbound c).1 ?_).1
      rw [← hc.bound]
      exact List.mem_map.2 ⟨cls.decl, List.mem_append_left _ (List.mem_append_left _
        (List.mem_map_of_mem hcls)), rfl⟩
    have hclasses : (package.classes.map (·.binding)).Nodup := by
      refine hdistinct.sublist ?_
      rw [Package.decls, List.append_assoc, List.map_append, List.map_map]
      exact List.sublist_append_left _ _
    have hnone : Builtins.decls.filter (·.isMethodOf c) = [] := by
      refine List.filter_eq_nil_iff.2 fun decl hmem hmethod => ?_
      have howner := Bindings.initial_inventory.owners decl hmem c
        (of_decide_eq_true (Bool.and_eq_true_iff.1 hmethod).2)
      exact absurd howner (Nat.not_lt.2 hwritten)
    rw [h.methods c info hkind, List.filter_append, hnone, List.nil_append,
      Package.filter_decls hcls hc.bound hclasses]
  · obtain ⟨c, hc⟩ := hdescribes.declared cls (List.mem_append_right _ hcls)
    obtain ⟨m, params, hm⟩ := hc.methods method hmethod
    refine ⟨m, _, hm.bound, htable ▸ hm.kind, ?_⟩
    exact (map_binding (fun _ _ hparam => hparam.bound) hm.params).symm

end Correspondence

namespace Package

/-- Declarations and the entries of the table correspond one to one: if analysis is not cut short,
the classes, members, parameters and local variables of a program are bound to different symbols,
which are all those after the ones that are built in. Each has an entry with its name, its span, its
kind and what its written type denotes, and the entries of classes and methods list what belongs to
them in the order of the text. -/
theorem declarations_correspond (package : Package) {analysis : Analysis}
    (hanalysis : package.analyze.analysis? = some analysis) :
    analysis.Corresponds package.analyze.package := by
  unfold analyze at hanalysis ⊢
  cases hrun : (ClassDef.analyzeAll package.classes).run .initial |>.run [] with
  | error classes log => simp [hrun] at hanalysis
  | ok result log =>
    simp only [hrun] at hanalysis
    obtain rfl := Option.some.inj hanalysis
    have hscoped := (ClassDef.analyzeAll_scoped package.classes .initial rfl).ok hrun
    have hinventory := (ClassDef.analyzeAll_inventory package.classes package.span .initial rfl).ok hrun
    exact hinventory.corresponds hscoped.1.describes rfl rfl

/-- A program with declarations of every kind. -/
def counting : Package where
  classes := [
    { name := "Counter"
      fields := [{ modifiers := { isPrivate := true }, type := .int {}, name := "n" }]
      methods := [{
        modifiers := {}, returnType := .int {}, name := "add"
        params := [{ type := .int {}, name := "by" }]
        body := [
          .varDecl {} { type := .int {}, name := "sum" }
            (.binary {} .add (.ref {} (.ofPath "this.n")) (.ref {} (.ofPath "by"))),
          .return {} (some (.ref {} (.ofPath "sum")))] }] },
    { name := "Main"
      fields := [{ modifiers := { isStatic := true }, type := .int {}, name := "total" }]
      methods := [.main [
        .varDecl {} { type := .named {} "Counter", name := "c" } (.newObject {} { name := "Counter" }),
        .assign {} (.ofPath "Main.total") (.call {} (.ofPath "c.add") [.int {} 1])]] }]

theorem counting_corresponds : ∃ analysis, counting.analyze.analysis? = some analysis ∧
    analysis.Corresponds counting.analyze.package ∧
      counting.analyze.package.decls.map (fun decl => (decl.name, decl.binding)) =
        [("Counter", some ⟨7⟩), ("Main", some ⟨8⟩), ("n", some ⟨9⟩), ("add", some ⟨10⟩),
          ("by", some ⟨11⟩), ("total", some ⟨12⟩), ("main", some ⟨13⟩), ("args", some ⟨14⟩),
          ("sum", some ⟨15⟩), ("c", some ⟨16⟩)] := by
  have hrun : counting.analyze.analysis?.isSome = true := by decide +kernel
  obtain ⟨analysis, hanalysis⟩ := Option.isSome_iff_exists.1 hrun
  exact ⟨analysis, hanalysis, declarations_correspond counting hanalysis, by decide +kernel⟩

end Package

end SmallJava
