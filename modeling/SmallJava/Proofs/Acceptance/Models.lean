import SmallJava.Proofs.Acceptance.Types
import SmallJava.Proofs.Scoping.Layers

namespace SmallJava

/-- What can be assigned: a variable, a parameter or a field. -/
def SymbolKind.isPlace : SymbolKind → Bool
  | field .. | param | localVar => true
  | _ => false

/-- The symbol is declared as what the rules say. -/
inductive Bindings.Stands (b : Bindings) (decls : List ClassDef) (x : SymbolId) :
    Source.Entity → Prop
  | place {kind τ} (hkind : b.table.kind? x = some kind) (hplace : kind.isPlace = true)
    (hty : (b.table.typeOf x).Means decls τ) : Stands b decls x (.place τ)
  | length (hkind : b.table.kind? x = some .arrayLength) (hty : b.table.typeOf x = .int) :
    Stands b decls x (.value .int)
  | method {method owner params} (hdeclared : MethodDef.DeclaredAt b owner method x params) :
    Stands b decls x (.method method.sig)
  | cls {cls} (hmem : cls ∈ decls) (hbound : cls.binding = some x) : Stands b decls x (.cls cls.sig)

/-- The variables of a block by their symbols are those that the rules know. -/
def Layer.Means (table : SymbolTable) (decls : List ClassDef) : Layer → Source.Block → Prop :=
  List.Forall₂ fun var entry => var.1 = entry.1 ∧
    (∃ kind, table.kind? var.2 = some kind ∧ kind.isPlace = true) ∧
      (table.typeOf var.2).Means decls entry.2

/-- In a method of the class, the names in force are those that the rules know. -/
structure Bindings.Models (decls : List ClassDef) (cls : ClassDef) (b : Bindings)
    (method : MethodContext) (E : Source.Env) : Prop where
  knows : b.Knows decls
  classes : E.classes = decls.map ClassDef.sig
  mem : cls ∈ decls
  bound : cls.binding = some method.cls
  own : E.cls = cls.sig
  members : ∀ name x, b.scope.members.get? name = some x ↔
    ∃ d ∈ cls.members, d.name = name ∧ d.binding = some x
  isStatic : method.isStatic = E.isStatic
  returnTy : method.returnTy.Means decls E.returnTy
  layers : ∃ layer layers, b.scope.Represents (layer :: layers) ∧ layer.Means b.table decls E.block ∧
    List.Forall₂ (Layer.Means b.table decls) layers E.around

/-- The environment also agrees with the rules on the variable whose initial value this is. -/
structure Env.Models (decls : List ClassDef) (cls : ClassDef) (env : Env) (E : Source.Env) : Prop where
  models : env.toBindings.Models decls cls env.method E
  initializing : ∀ name found, env.scope.lookup name = some found →
    (env.initializing = some found.symbol ↔ E.initializing = some name)
  declared : ∀ name, E.initializing = some name → E.visible? name ≠ none

section Blocks

variable {table : SymbolTable} {decls : List ClassDef}

/-- A name that a layer has is a variable of the type that the block gives it, and a name that the
    layer lacks is not in the block. -/
theorem Layer.Means.lookup {layer : Layer} {block : Source.Block} (h : layer.Means table decls block)
    (name : String) : Option.Rel (fun x τ =>
      (∃ kind, table.kind? x = some kind ∧ kind.isPlace = true) ∧
        (table.typeOf x).Means decls τ) (layer.lookup name) (block.lookup name) := by
  induction h with
  | nil => exact .none
  | @cons var entry rest rest' hfirst _ ih =>
    obtain ⟨x, id⟩ := var
    obtain ⟨y, τ⟩ := entry
    obtain ⟨rfl, hfirst⟩ := hfirst
    simp only [List.lookup_cons]
    cases name == x with
    | true => exact .some hfirst
    | false => exact ih

/-- The same for a stack of layers: the innermost that has the name decides on both sides. -/
theorem Layers.find?_means {layers : Layers} {blocks : List Source.Block}
    (h : List.Forall₂ (Layer.Means table decls) layers blocks) (name : String) :
    Option.Rel (fun x τ =>
      (∃ kind, table.kind? x = some kind ∧ kind.isPlace = true) ∧
        (table.typeOf x).Means decls τ)
      (layers.find? name) (blocks.findSome? (·.lookup name)) := by
  induction h with
  | nil => exact .none
  | @cons layer block layers blocks hlayer _ ih =>
    unfold find?
    rw [List.findSome?_cons, List.findSome?_cons]
    have hfirst := hlayer.lookup name
    generalize layer.lookup name = found, block.lookup name = known at hfirst
    cases hfirst with
    | none => exact ih
    | some hfound => exact .some hfound

end Blocks

namespace Bindings

variable {b : Bindings} {decls : List ClassDef} {cls : ClassDef} {method : MethodContext}
  {E : Source.Env} {c x : SymbolId} {name : String}

/-- A member of a class is declared as what its name denotes. -/
theorem Knows.member_corresponds (h : b.Knows decls) (hmem : cls ∈ decls) (name : String)
    (modifiers : Modifiers) : Corresponds (b.Stands decls)
      (fun x => ∃ d ∈ cls.members, d.name = name ∧ d.binding = some x ∧ d.modifiers = modifiers)
      (cls.sig.Member (decls.map ClassDef.sig) name modifiers) := by
  obtain ⟨c, hcls⟩ := h.describes.declared cls hmem
  constructor
  · rintro x ⟨d, hd, rfl, hbound, rfl⟩
    obtain hd | hd := List.mem_append.1 hd
    · obtain ⟨field, hfield, rfl⟩ := List.mem_map.1 hd
      obtain ⟨y, hdeclared⟩ := hcls.fields field hfield
      obtain rfl : y = x := Option.some.inj (hdeclared.bound.symm.trans hbound)
      obtain ⟨τ, hmeans, hdenotes⟩ := (h.resolve_corresponds field.type).sound _ hdeclared.type
      have hsig : field.sig ∈ cls.sig.fields := List.mem_map_of_mem hfield
      exact ⟨_, .place hdeclared.kind rfl hmeans, .field hsig hdenotes⟩
    · obtain ⟨method, hmethod, rfl⟩ := List.mem_map.1 hd
      obtain ⟨m, params, hdeclared⟩ := hcls.methods method hmethod
      obtain rfl : m = x := Option.some.inj (hdeclared.bound.symm.trans hbound)
      have hsig : method.sig ∈ cls.sig.methods := List.mem_map_of_mem hmethod
      exact ⟨_, .method hdeclared, .method hsig⟩
  · intro entity hmember
    cases hmember with
    | field hsig hdenotes =>
      obtain ⟨field, hfield, rfl⟩ := List.mem_map.1 hsig
      obtain ⟨x, hdeclared⟩ := hcls.fields field hfield
      obtain ⟨ty, hmeans, hresolve⟩ := (h.resolve_corresponds field.type).complete _ hdenotes
      obtain rfl : b.table.typeOf x = ty := Except.ok.inj (hdeclared.type.symm.trans hresolve)
      exact ⟨x, .place hdeclared.kind rfl hmeans, field.member,
        List.mem_append_left _ (List.mem_map_of_mem hfield), rfl, hdeclared.bound, rfl⟩
    | method hsig =>
      obtain ⟨method, hmethod, rfl⟩ := List.mem_map.1 hsig
      obtain ⟨m, params, hdeclared⟩ := hcls.methods method hmethod
      exact ⟨m, .method hdeclared, method.member,
        List.mem_append_right _ (List.mem_map_of_mem hmethod), rfl, hdeclared.bound, rfl⟩

/-- The table knows of a member what its class says. -/
theorem Knows.isStatic_member (h : b.Knows decls) (hmem : cls ∈ decls) {d : MemberDef}
    (hd : d ∈ cls.members) (hbound : d.binding = some x) :
    b.table.isStatic x = d.modifiers.isStatic := by
  obtain ⟨c, hcls⟩ := h.describes.declared cls hmem
  obtain hd | hd := List.mem_append.1 hd
  · obtain ⟨field, hfield, rfl⟩ := List.mem_map.1 hd
    obtain ⟨y, hdeclared⟩ := hcls.fields field hfield
    obtain rfl : y = x := Option.some.inj (hdeclared.bound.symm.trans hbound)
    exact Signature.isStatic_of_field b.table.signature hdeclared.kind
  · obtain ⟨method, hmethod, rfl⟩ := List.mem_map.1 hd
    obtain ⟨m, params, hdeclared⟩ := hcls.methods method hmethod
    obtain rfl : m = x := Option.some.inj (hdeclared.bound.symm.trans hbound)
    exact Signature.isStatic_of_method b.table.signature hdeclared.kind

/-- Names of members are those of fields and of methods. -/
theorem mem_memberNames_iff : name ∈ cls.sig.memberNames ↔ ∃ d ∈ cls.members, d.name = name := by
  simp [Source.ClassSig.memberNames, ClassDef.sig, ClassDef.members, FieldDef.sig, MethodDef.sig,
    FieldDef.member, MethodDef.member, or_and_right, exists_or]

namespace Models

/-- A bare name is looked up in the order of the rules. -/
theorem lookup_cases (h : b.Models decls cls method E) (name : String) :
    (∃ x τ, b.scope.lookup name = some (.localVar x) ∧ E.visible? name = some τ ∧
      b.Stands decls x (.place τ)) ∨
    (∃ x, b.scope.lookup name = some (.member x) ∧ E.visible? name = none ∧
      ∃ d ∈ cls.members, d.name = name ∧ d.binding = some x) ∨
    (b.scope.lookup name = (b.scope.class? name).map .cls ∧ E.visible? name = none ∧
      name ∉ E.cls.memberNames) := by
  obtain ⟨layer, layers, hrepresents, hlayer, hlayers⟩ := h.layers
  have hfind := hrepresents.find? name
  have hmeans := Layers.find?_means (.cons hlayer hlayers) name
  rw [← hfind] at hmeans
  unfold Scope.lookup Source.Env.visible?
  cases hlocal : b.scope.locals.get? name with
  | some entry =>
    rw [hlocal] at hmeans
    cases hvisible : (E.block :: E.around).findSome? (·.lookup name) with
    | none =>
      rw [hvisible] at hmeans
      cases hmeans
    | some τ =>
      rw [hvisible] at hmeans
      obtain ⟨⟨kind, hkind, hplace⟩, hty⟩ := Option.rel_some_some.1 hmeans
      exact .inl ⟨_, τ, rfl, rfl, .place hkind hplace hty⟩
  | none =>
    rw [hlocal] at hmeans
    cases hvisible : (E.block :: E.around).findSome? (·.lookup name) with
    | some τ =>
      rw [hvisible] at hmeans
      cases hmeans
    | none =>
      cases hmember : b.scope.members.get? name with
      | some x => exact .inr (.inl ⟨x, rfl, rfl, (h.members name x).1 hmember⟩)
      | none =>
        refine .inr (.inr ⟨rfl, rfl, ?_⟩)
        rw [h.own, mem_memberNames_iff]
        rintro ⟨d, hd, rfl⟩
        obtain ⟨c, hcls⟩ := h.knows.describes.declared cls h.mem
        obtain ⟨info, -, hinfo⟩ := hcls.info
        obtain ⟨x, hx⟩ := hinfo.bound d hd
        rw [(h.members d.name x).2 ⟨d, hd, rfl, hx⟩] at hmember
        cases hmember

end Models

end Bindings

end SmallJava
