import SmallJava.Proofs.Declaration.Inventory
import SmallJava.Proofs.Execution.Loaded
import SmallJava.Proofs.Scoping.Program

/-! Which slots the layout gives to the declarations of a program, as these are written. -/

namespace SmallJava

/-- The second table is the first with other slots. -/
structure SymbolTable.SameButSlots (before after : SymbolTable) : Prop where
  classes : after.classes = before.classes
  symbols : ∀ x, after.get? x =
    (before.get? x).map fun symbol => { symbol with slot := after.slot? x }

namespace SymbolTable.SameButSlots

variable {t₁ t₂ t₃ : SymbolTable}

theorem refl (table : SymbolTable) : table.SameButSlots table where
  classes := rfl
  symbols := by
    intro x
    unfold slot?
    cases table.get? x <;> rfl

theorem trans (h : t₁.SameButSlots t₂) (h' : t₂.SameButSlots t₃) : t₁.SameButSlots t₃ where
  classes := h'.classes.trans h.classes
  symbols := by
    intro x
    rw [h'.symbols, h.symbols, Option.map_map]
    rfl

/-- Setting a slot changes the table in slots only. -/
theorem of_setSlot {x : SymbolId} {d : Int} (hset : t₁.setSlot x d = .ok t₂) :
    t₁.SameButSlots t₂ := by
  obtain ⟨-, rfl⟩ := setSlot_eq_ok_iff.1 hset
  refine ⟨rfl, fun y => ?_⟩
  rw [slot?_modify_slot, get?_modify]
  by_cases heq : y = x
  · simp only [if_pos heq]
    cases t₁.get? y <;> rfl
  · simp only [if_neg heq]
    exact (refl t₁).symbols y

/-- Where no slot comes and none was, nothing changes. -/
theorem get?_eq (h : t₁.SameButSlots t₂) {x : SymbolId} (hbefore : t₁.slot? x = none)
    (hafter : t₂.slot? x = none) : t₂.get? x = t₁.get? x := by
  have hkept := (refl t₁).symbols x
  rw [hbefore] at hkept
  rw [h.symbols, hafter]
  exact hkept.symm

end SymbolTable.SameButSlots

/-- Carrying out a plan changes the table in slots only. -/
theorem SlotWriter.sameButSlots_of_assignAll {plan : SlotPlan} {t t' : SymbolTable}
    (hassign : assignAll plan t = .ok () t') : t.SameButSlots t' := by
  induction plan generalizing t with
  | nil =>
    obtain ⟨-, rfl⟩ := pure_eq_ok_iff.1 hassign
    exact .refl t
  | cons entry rest ih =>
    obtain ⟨_, mid, hfirst, hrest⟩ := bind_eq_ok_iff.1 hassign
    exact (SymbolTable.SameButSlots.of_setSlot (assign_eq_ok_iff.1 hfirst)).trans (ih hrest)

/-- The layout of well-formed declarations changes nothing but slots. -/
theorem SymbolTable.WellFormed.sameButSlots {table after : SymbolTable} {strict : Bool} {statics : Int}
    (h : table.WellFormed strict) (hlayout : SlotWriter.layout table = .ok statics after) :
    table.SameButSlots after := by
  rw [SlotWriter.layout_eq table fun cls => (h.classes cls).1] at hlayout
  obtain ⟨_, mid, hassign, hpure⟩ := bind_eq_ok_iff.1 hlayout
  obtain ⟨-, rfl⟩ := pure_eq_ok_iff.1 hpure
  exact SlotWriter.sameButSlots_of_assignAll hassign

/-- The slots of declarations with these bindings. -/
def SymbolTable.slotsOf (table : SymbolTable) (bindings : List (Option SymbolId)) :
    List (Option Int) :=
  bindings.map (·.bind table.slot?)

/-- So many slots one after the other. -/
def slotsFrom (first : Int) (count : Nat) : List (Option Int) :=
  (List.range count).map fun i : Nat => some (first + i)

section Bound

variable {α : Type} {bound : α → Option SymbolId} {ids : List SymbolId} {defs : List α}

theorem length_eq_of_bindings (hids : ids.map some = defs.map bound) : ids.length = defs.length := by
  simpa using congrArg List.length hids

/-- Symbols that have their slots one after the other give these to the definitions bound to them. -/
theorem SymbolTable.slotsOf_eq {table : SymbolTable} {first : Int}
    (hids : ids.map some = defs.map bound)
    (hslots : ∀ (i : Nat) x, ids[i]? = some x → table.slot? x = some (first + i)) :
    table.slotsOf (defs.map bound) = slotsFrom first defs.length := by
  rw [← hids, ← length_eq_of_bindings hids]
  apply List.ext_getElem?
  intro i
  simp only [slotsOf, slotsFrom, List.getElem?_map, Option.map_map]
  cases hget : ids[i]? with
  | none => simp [List.getElem?_eq_none_iff.1 hget]
  | some x =>
    obtain ⟨hlt, -⟩ := List.getElem?_eq_some_iff.1 hget
    simp [List.getElem?_range hlt, hslots i x hget]

/-- Symbols and definitions that a condition agrees on are the same when it picks them out. -/
theorem map_filter_bindings {p : SymbolId → Bool} {q : α → Bool}
    (hids : ids.map some = defs.map bound)
    (hsame : ∀ d ∈ defs, ∀ x, bound d = some x → p x = q d) :
    (ids.filter p).map some = (defs.filter q).map bound := by
  induction defs generalizing ids with
  | nil =>
    obtain rfl : ids = [] := by simpa using hids
    rfl
  | cons d rest ih =>
    cases ids with
    | nil => simp at hids
    | cons x ids =>
      obtain ⟨hx, hrest⟩ := List.cons.inj hids
      have hfirst := hsame d (.head _) x hx.symm
      have hpicked := ih hrest fun d hd => hsame d (List.mem_cons_of_mem _ hd)
      cases hq : q d <;> simp [hfirst, hq, hx, hpicked]

end Bound

namespace ClassDef

/-- The fields that a class has once. -/
def staticFields (cls : ClassDef) : List FieldDef := cls.fields.filter (·.modifiers.isStatic)

/-- The fields that each object of a class has. -/
def instanceFields (cls : ClassDef) : List FieldDef := cls.fields.filter (!·.modifiers.isStatic)

/-- What is stored for a class: its size, its fields and the parameters of its methods. -/
def stored (cls : ClassDef) : List (Option SymbolId) :=
  cls.binding :: cls.fields.map (·.binding) ++
    cls.methods.flatMap fun method => method.params.map (·.binding)

end ClassDef

/-- The kinds of what is stored: classes with their sizes, fields and parameters. Local variables are
placed by their methods. -/
def SymbolKind.isStored : SymbolKind → Bool
  | cls _ | field _ _ | param => true
  | method _ | localVar | arrayLength => false

section Declared

variable {b : Bindings} {classes : List ClassDef} {cls : ClassDef} {method : MethodDef}
  {c m x : SymbolId} {params : List SymbolId}

theorem ClassDef.DeclaredAt.fields_eq (h : cls.DeclaredAt b c) :
    (b.table.signature.classInfo c).fields.map some = cls.fields.map (·.binding) := by
  obtain ⟨info, hkind, -⟩ := h.info
  rw [SymbolTable.classInfo_eq hkind]
  exact h.order info hkind

theorem ClassDef.DeclaredAt.instanceFields_eq (h : cls.DeclaredAt b c) :
    (b.table.signature.instanceFields c).map some = cls.instanceFields.map (·.binding) :=
  map_filter_bindings h.fields_eq fun _ hmem _ hbound => by rw [h.isStatic_eq hmem hbound]

theorem MethodDef.DeclaredAt.params_eq (h : method.DeclaredAt b c m params) :
    (b.table.signature.paramsOf m).map some = method.params.map (·.binding) := by
  rw [SymbolTable.paramsOf_eq h.kind]
  exact (map_binding (fun _ _ hparam => hparam.bound) h.params).symm

namespace Bindings.Describes

/-- The static fields of all classes in the table are those that are written, in their order. -/
theorem staticFields_eq (h : b.Describes classes) :
    (b.table.signature.staticFields b.table.classes).map some =
      (classes.flatMap ClassDef.staticFields).map (·.binding) := by
  have hpicked : b.table.classes.map
      (fun c => ((b.table.signature.classInfo c).fields.filter b.table.signature.isStatic).map some) =
        classes.map fun cls => cls.staticFields.map (·.binding) := by
    refine map_eq_of_bindings h.order fun cls hmem c hbound => ?_
    obtain ⟨c', hc⟩ := h.declared cls hmem
    obtain rfl := Option.some.inj (hbound.symm.trans hc.bound)
    exact map_filter_bindings hc.fields_eq fun _ hmem _ => hc.isStatic_eq hmem
  unfold Signature.staticFields
  rw [List.map_flatMap, List.map_flatMap, List.flatMap_def, List.flatMap_def, hpicked]

/-- What is written to be stored is a class, a field or a parameter. -/
theorem kind_of_mem_stored (h : b.Describes classes) (hmem : some x ∈ classes.flatMap ClassDef.stored) :
    ∃ kind, b.table.kind? x = some kind ∧ kind.isStored = true := by
  obtain ⟨cls, hcls, hmem⟩ := List.mem_flatMap.1 hmem
  obtain ⟨c, hc⟩ := h.declared cls hcls
  obtain hmem | hmem := List.mem_append.1 hmem
  · obtain hbound | hmem := List.mem_cons.1 hmem
    · obtain ⟨info, hkind, -⟩ := hc.info
      obtain rfl := Option.some.inj (hbound.trans hc.bound)
      exact ⟨_, hkind, rfl⟩
    · obtain ⟨field, hfield, hbound⟩ := List.mem_map.1 hmem
      obtain ⟨y, hy⟩ := hc.fields field hfield
      obtain rfl := Option.some.inj (hbound.symm.trans hy.bound)
      exact ⟨_, hy.kind, rfl⟩
  · obtain ⟨method, hmethod, hmem⟩ := List.mem_flatMap.1 hmem
    obtain ⟨param, hparam, hbound⟩ := List.mem_map.1 hmem
    obtain ⟨m, params, hm⟩ := hc.methods method hmethod
    obtain ⟨y, hy⟩ := hm.param hparam
    obtain rfl := Option.some.inj (hbound.symm.trans hy.bound)
    exact ⟨_, hy.kind, rfl⟩

theorem notMem_stored (h : b.Describes classes) {kind : SymbolKind} (hkind : b.table.kind? x = some kind)
    (hstored : kind.isStored = false) : some x ∉ classes.flatMap ClassDef.stored := by
  intro hmem
  obtain ⟨kind', hkind', hstored'⟩ := h.kind_of_mem_stored hmem
  obtain rfl := Option.some.inj (hkind.symm.trans hkind')
  rw [hstored] at hstored'
  cases hstored'

end Bindings.Describes

namespace Bindings.Declared

/-- Whatever the layout stores is written. -/
theorem mem_stored (h : b.Declared classes)
    (hmem : x ∈ b.table.classes.flatMap b.table.signature.storedFor) :
    some x ∈ classes.flatMap ClassDef.stored := by
  obtain ⟨c, hclass, hmem⟩ := List.mem_flatMap.1 hmem
  obtain ⟨cls, hcls, hc⟩ := h.describes.exists_of_mem_classes hclass
  obtain ⟨info, hkind, -⟩ := hc.info
  obtain ⟨modifiers, hfield⟩ | rfl | ⟨m, minfo, hmethod, -, hparam⟩ :=
    h.wellFormed.storedFor_cases hkind hmem
  · have hbound : some x ∈ cls.fields.map (·.binding) := by
      rw [← hc.fields_eq]
      exact List.mem_map_of_mem (h.wellFormed.mem_fields hfield).2
    exact List.mem_flatMap.2
      ⟨cls, hcls, List.mem_append_left _ (List.mem_cons_of_mem _ hbound)⟩
  · exact List.mem_flatMap.2 ⟨cls, hcls, List.mem_append_left _ (hc.bound ▸ List.mem_cons_self)⟩
  · obtain ⟨cls', hcls', method, hin, hbound⟩ := h.describes.methods m
      (b.table.signature.isMethod_iff.2 ⟨minfo, hmethod⟩)
    obtain ⟨c', hc'⟩ := h.describes.declared cls' hcls'
    obtain ⟨m', params, hm⟩ := hc'.methods method hin
    obtain rfl := Option.some.inj (hbound.symm.trans hm.bound)
    have hbound : some x ∈ method.params.map (·.binding) := by
      rw [← hm.params_eq, SymbolTable.paramsOf_eq hmethod]
      exact List.mem_map_of_mem hparam
    exact List.mem_flatMap.2
      ⟨cls', hcls', List.mem_append_right _ (List.mem_flatMap.2 ⟨method, hin, hbound⟩)⟩

section Layout

variable {after : SymbolTable} {statics : Int}

/-- The static fields of all classes have the slots 0, 1, 2 and so on, and the layout returns their
number. -/
theorem slotsOf_statics (h : b.Declared classes)
    (hlayout : SlotWriter.layout b.table = .ok statics after) :
    statics = (classes.flatMap ClassDef.staticFields).length ∧
      after.slotsOf ((classes.flatMap ClassDef.staticFields).map (·.binding)) =
        slotsFrom 0 (classes.flatMap ClassDef.staticFields).length := by
  obtain ⟨rfl, hplaced, -⟩ := h.wellFormed.placed_of_layout hlayout
  obtain ⟨hcount, hnumbers⟩ := b.table.signature.classPlan_numbers b.table.classes 0
  have hfields := h.describes.staticFields_eq
  have hlength := length_eq_of_bindings hfields
  refine ⟨by rw [← hlength]; exact hcount.trans (Int.zero_add _),
    SymbolTable.slotsOf_eq hfields fun i x hget => ?_⟩
  obtain ⟨c, hcls, hmem⟩ := List.mem_flatMap.1 (List.mem_of_getElem? hget)
  obtain ⟨info, hcls⟩ := (h.wellFormed.classes c).1 hcls
  rw [SymbolTable.classInfo_eq hcls] at hmem
  obtain ⟨modifiers, hkind⟩ := h.wellFormed.exists_of_mem_fields hcls (List.mem_filter.1 hmem).1
  exact hplaced x _ (hnumbers i x hget) (by simp [hkind])

/-- The instance fields of a class have the slots 0, 1, 2 and so on, and the class itself has their
number. -/
theorem slotsOf_instances (h : b.Declared classes)
    (hlayout : SlotWriter.layout b.table = .ok statics after) (hcls : cls ∈ classes) :
    after.slotsOf (cls.instanceFields.map (·.binding)) = slotsFrom 0 cls.instanceFields.length ∧
      cls.binding.bind after.slot? = some (cls.instanceFields.length : Int) := by
  obtain ⟨-, hplaced, -⟩ := h.wellFormed.placed_of_layout hlayout
  obtain ⟨c, hc⟩ := h.describes.declared cls hcls
  obtain ⟨info, hkind, -⟩ := hc.info
  have hfields := hc.instanceFields_eq
  have hlength := length_eq_of_bindings hfields
  constructor
  · refine SymbolTable.slotsOf_eq hfields fun i x hget => ?_
    have hmem := (List.mem_filter.1 (List.mem_of_getElem? hget)).1
    rw [SymbolTable.classInfo_eq hkind] at hmem
    obtain ⟨modifiers, hfield⟩ := h.wellFormed.exists_of_mem_fields hkind hmem
    rw [Int.zero_add]
    exact hplaced x _ (b.table.signature.mem_classPlan_own b.table.classes 0
      (h.describes.mem_classes hcls hc) hget) (by simp [hfield])
  · rw [hc.bound, ← hlength]
    exact (h.wellFormed.instances hlayout hkind).1

/-- Of n parameters the first has the slot -n and the last the slot -1. -/
theorem slotsOf_params (h : b.Declared classes)
    (hlayout : SlotWriter.layout b.table = .ok statics after) (hcls : cls ∈ classes)
    (hmethod : method ∈ cls.methods) : after.slotsOf (method.params.map (·.binding)) =
      slotsFrom (-(method.params.length : Int)) method.params.length := by
  obtain ⟨c, hc⟩ := h.describes.declared cls hcls
  obtain ⟨m, params, hm⟩ := hc.methods method hmethod
  have hparams := hm.params_eq
  have hlength := length_eq_of_bindings hparams
  refine SymbolTable.slotsOf_eq hparams fun i p hget => ?_
  rw [SymbolTable.paramsOf_eq hm.kind] at hget hlength
  rw [(h.wellFormed.laidOut_of_layout hlayout).params m _ hm.kind i p hget, hlength]
  congr 1
  omega

/-- A symbol that is nowhere stored has no slot, and its entry is not changed. -/
theorem others_kept (h : b.Declared classes)
    (hlayout : SlotWriter.layout b.table = .ok statics after)
    (hout : some x ∉ classes.flatMap ClassDef.stored) :
    after.slot? x = none ∧ after.get? x = b.table.get? x := by
  obtain ⟨-, -, hother⟩ := h.wellFormed.placed_of_layout hlayout
  have hnone := hother x fun hmem => hout (h.mem_stored hmem)
  exact ⟨hnone, (h.wellFormed.sameButSlots hlayout).get?_eq (h.wellFormed.slot?_eq_none x) hnone⟩

end Layout

end Bindings.Declared

end Declared

/-- The second table is the layout of the first, in which these classes are declared in the order of
the list. Static fields are numbered across all classes and instance fields within their class, both
in the order of the text, and the parameters of a method come right below its frame. Nothing else has
a slot before or after, and nothing but slots changes. -/
structure SymbolTable.LaidOutAs (before after : SymbolTable) (classes : List ClassDef) : Prop where
  order : before.classes.map some = classes.map (·.binding)
  statics : after.slotsOf ((classes.flatMap ClassDef.staticFields).map (·.binding)) =
    slotsFrom 0 (classes.flatMap ClassDef.staticFields).length
  instances : ∀ cls ∈ classes, after.slotsOf (cls.instanceFields.map (·.binding)) =
    slotsFrom 0 cls.instanceFields.length
  sizes : ∀ cls ∈ classes, cls.binding.bind after.slot? = some (cls.instanceFields.length : Int)
  params : ∀ cls ∈ classes, ∀ method ∈ cls.methods, after.slotsOf (method.params.map (·.binding)) =
    slotsFrom (-(method.params.length : Int)) method.params.length
  blank : ∀ x, before.slot? x = none
  others : ∀ x, some x ∉ classes.flatMap ClassDef.stored →
    after.slot? x = none ∧ after.get? x = before.get? x
  kinds : ∀ x kind, before.kind? x = some kind → kind.isStored = false →
    some x ∉ classes.flatMap ClassDef.stored
  same : before.SameButSlots after

/-- Declared classes are laid out as they are written. -/
theorem Bindings.Declared.laidOutAs {b : Bindings} {classes : List ClassDef} (h : b.Declared classes) :
    ∃ after, SlotWriter.layout b.table = .ok (classes.flatMap ClassDef.staticFields).length after ∧
      b.table.LaidOutAs after classes := by
  obtain ⟨statics, after, hlayout, -⟩ := h.wellFormed.layout
  obtain ⟨rfl, hstatics⟩ := h.slotsOf_statics hlayout
  exact ⟨after, hlayout, {
    order := h.describes.order
    statics := hstatics
    instances := fun cls hcls => (h.slotsOf_instances hlayout hcls).1
    sizes := fun cls hcls => (h.slotsOf_instances hlayout hcls).2
    params := fun cls hcls method hmethod => h.slotsOf_params hlayout hcls hmethod
    blank := h.wellFormed.slot?_eq_none
    others := fun x => h.others_kept hlayout
    kinds := fun x kind => h.describes.notMem_stored
    same := h.wellFormed.sameButSlots hlayout }⟩

namespace Package

/-- The classes of a program, after those that every program finds in place. -/
def allClasses (package : Package) : List ClassDef := Builtins.classDefs ++ package.classes

/-- If analysis is not cut short, the layout succeeds. It numbers the static fields of all classes,
those that are built in among them, the instance fields of each class and the parameters of each
method without gaps, in the order of the text, and gives a slot to nothing else. -/
theorem storage_dense (package : Package) {analysis : Analysis}
    (hanalysis : package.analyze.analysis? = some analysis) :
    ∃ after, SlotWriter.layout analysis.table =
        .ok (package.analyze.package.allClasses.flatMap ClassDef.staticFields).length after ∧
      analysis.table.LaidOutAs after package.analyze.package.allClasses := by
  obtain ⟨b, htable, -, hdeclared⟩ := analyze_declared hanalysis
  rw [← htable]
  exact hdeclared.laidOutAs

/-- A program with static fields in both of its classes, and with a mistake in a type. -/
def tally : Package where
  classes := [
    { name := "Point"
      fields := [
        { modifiers := {}, type := .int {}, name := "x" },
        { modifiers := { isStatic := true }, type := .int {}, name := "made" },
        { modifiers := {}, type := .int {}, name := "y" }]
      methods := [{
        modifiers := {}, returnType := .void {}, name := "move"
        params := [{ type := .int {}, name := "dx" }, { type := .int {}, name := "dy" }]
        body := [.assign {} (.ofPath "x") (.ref {} (.ofPath "dx"))] }] },
    { name := "Main"
      fields := [{ modifiers := { isStatic := true }, type := .int {}, name := "total" }]
      methods := [.main [.while {} (.int {} 1) (.println (.ref {} (.ofPath "total")))]] }]

/-- The analysis of `tally` reports errors, and its tables are laid out densely all the same. -/
theorem tally_numbered : tally.analyze.log ≠ [] ∧ ∃ analysis after,
    tally.analyze.analysis? = some analysis ∧ SlotWriter.layout analysis.table = .ok 3 after ∧
      analysis.table.LaidOutAs after tally.analyze.package.allClasses := by
  have hlog : tally.analyze.log ≠ [] := by decide +kernel
  have hrun : tally.analyze.analysis?.isSome = true := by decide +kernel
  have hcount : (tally.analyze.package.allClasses.flatMap ClassDef.staticFields).length = 3 := by
    decide +kernel
  obtain ⟨analysis, hanalysis⟩ := Option.isSome_iff_exists.1 hrun
  obtain ⟨after, hlayout, hnumbers⟩ := storage_dense tally hanalysis
  rw [hcount] at hlayout
  exact ⟨hlog, analysis, after, hanalysis, hlayout, hnumbers⟩

end Package

end SmallJava
