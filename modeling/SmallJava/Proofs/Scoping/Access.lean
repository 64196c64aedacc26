import SmallJava.Proofs.Declaration.Correspondence

/-! Which members a path may be bound to. -/

namespace SmallJava

namespace SymbolTable

/-- The class that a symbol is a member of. Only fields and methods are members. -/
def ownerOf? (table : SymbolTable) (x : SymbolId) : Option SymbolId := (table.kind? x).bind (·.owner?)

def isPrivate (table : SymbolTable) (x : SymbolId) : Bool :=
  (table.kind? x).any fun kind => kind.modifiers?.any (·.isPrivate)

/-- The symbol is the member of the class with this name. -/
structure HasMember (table : SymbolTable) (cls : SymbolId) (name : String) (x : SymbolId) : Prop where
  owner : table.ownerOf? x = some cls
  entry : ∃ info, table.kind? cls = some (.cls info) ∧ info.members.get? name = some x

/-- The members of a class are its own, and the visible ones among them are not private. -/
structure Sealed (table : SymbolTable) : Prop where
  members : ∀ cls info name x, table.kind? cls = some (.cls info) →
    info.members.get? name = some x → table.ownerOf? x = some cls
  visible : ∀ cls info name x, table.kind? cls = some (.cls info) →
    info.visible.get? name = some x →
      info.members.get? name = some x ∧ table.isPrivate x = false

variable {table : SymbolTable} {cls x : SymbolId} {name : String}

theorem Sealed.hasMember (h : table.Sealed) {info : ClassInfo}
    (hcls : table.kind? cls = some (.cls info)) (hget : info.members.get? name = some x) :
    table.HasMember cls name x :=
  ⟨h.members cls info name x hcls hget, info, hcls, hget⟩

/-- The two tables agree on all but variables. -/
def AgreesOnMembers (table after : SymbolTable) : Prop :=
  ∀ x kind, kind.isVariable = false → (after.kind? x = some kind ↔ table.kind? x = some kind)

theorem AddsVariables.agreesOnMembers {kind : SymbolKind} {strict : Bool} {after : SymbolTable}
    (h : table.AddsVariables kind strict after) : table.AgreesOnMembers after :=
  fun _ _ hkind => h.kind?_iff hkind

namespace AgreesOnMembers

variable {after : SymbolTable} (h : table.AgreesOnMembers after)

include h

theorem symm : after.AgreesOnMembers table := fun x kind hkind => (h x kind hkind).symm

/-- Tables that agree on members agree on their owners. -/
theorem ownerOf?_eq (x : SymbolId) : after.ownerOf? x = table.ownerOf? x := by
  have hmember : ∀ {kind : SymbolKind} {owner : SymbolId}, kind.owner? = some owner →
      kind.isVariable = false := by
    intro kind owner howner
    cases kind <;> first | rfl | cases howner
  apply Option.ext
  intro owner
  unfold ownerOf?
  rw [Option.bind_eq_some_iff, Option.bind_eq_some_iff]
  constructor
  · rintro ⟨kind, hkind, howner⟩
    exact ⟨kind, (h x kind (hmember howner)).1 hkind, howner⟩
  · rintro ⟨kind, hkind, howner⟩
    exact ⟨kind, (h x kind (hmember howner)).2 hkind, howner⟩

/-- What is asked of the kind of a symbol has the same answer if it is no for variables. -/
theorem any_kind?_eq {f : SymbolKind → Bool} (hf : ∀ kind, kind.isVariable = true → f kind = false)
    (x : SymbolId) : (after.kind? x).any f = (table.kind? x).any f := by
  have hkind : ∀ {kind}, f kind = true → kind.isVariable = false := fun {kind} hyes =>
    Bool.eq_false_iff.2 fun hvar => Bool.false_ne_true ((hf kind hvar).symm.trans hyes)
  rw [Bool.eq_iff_iff, Option.any_eq_true, Option.any_eq_true]
  exact exists_congr fun kind => and_congr_left fun hyes => h x kind (hkind hyes)

theorem isPrivate_eq (x : SymbolId) : after.isPrivate x = table.isPrivate x :=
  h.any_kind?_eq (fun kind hvar => by cases kind <;> first | rfl | cases hvar) x

theorem isStatic_eq (x : SymbolId) : after.isStatic x = table.isStatic x :=
  h.any_kind?_eq (fun kind hvar => by cases kind <;> first | rfl | cases hvar) x

theorem isClass_eq (x : SymbolId) : after.isClass x = table.isClass x :=
  h.any_kind?_eq (fun kind hvar => by cases kind <;> first | rfl | cases hvar) x

theorem hasMember (hmember : table.HasMember cls name x) : after.HasMember cls name x where
  owner := (h.ownerOf?_eq x).trans hmember.owner
  entry := by
    obtain ⟨info, hkind, hget⟩ := hmember.entry
    exact ⟨info, (h cls _ rfl).2 hkind, hget⟩

/-- A table that agrees with a sealed one on members is sealed. -/
theorem isSealed (hsealed : table.Sealed) : after.Sealed where
  members := by
    intro cls info name x hcls hget
    rw [h.ownerOf?_eq]
    exact hsealed.members cls info name x ((h cls _ rfl).1 hcls) hget
  visible := by
    intro cls info name x hcls hget
    rw [h.isPrivate_eq]
    exact hsealed.visible cls info name x ((h cls _ rfl).1 hcls) hget

end AgreesOnMembers

end SymbolTable

namespace Reference

/-- What is asked of a member after a dot, in the methods of a class: it is the member of that name
of its own class, which is the class before the dot or that of the object there. -/
structure Accesses (table : SymbolTable) (cls : SymbolId) (before : Reference) (name : String)
    (x owner : SymbolId) : Prop where
  member : table.HasMember owner name x
  visible : table.isPrivate x = true → owner = cls
  ofClass : ∀ c, before.binding = some c → table.isClass c = true →
    owner = c ∧ table.isStatic x = true
  ofObject : (∀ c, before.binding = some c → table.isClass c = false) →
    before.annot.ty = some (.object owner)

/-- The last name of the path is bound to no member of a class, or to one that may be used in the
methods of the given class. -/
def Encapsulated (table : SymbolTable) (cls : SymbolId) : Reference → Prop
  | this _ => True
  | ident _ name => ∀ x owner, name.binding = some x → table.ownerOf? x = some owner →
    owner = cls ∧ table.HasMember cls name.name x
  | member _ before name => ∀ x owner, name.binding = some x → table.ownerOf? x = some owner →
    Accesses table cls before name.name x owner

/-- Whether a member may be used does not depend on variables. -/
theorem Encapsulated.congr {table after : SymbolTable} (h : table.AgreesOnMembers after)
    {cls : SymbolId} {path : Reference} (hpath : path.Encapsulated table cls) :
    path.Encapsulated after cls := by
  cases path with
  | this => trivial
  | ident annot name =>
    intro x owner hbound howner
    rw [h.ownerOf?_eq] at howner
    obtain ⟨howner, hmember⟩ := hpath x owner hbound howner
    exact ⟨howner, h.hasMember hmember⟩
  | member annot before name =>
    intro x owner hbound howner
    rw [h.ownerOf?_eq] at howner
    obtain ⟨hmember, hvisible, hclass, hobject⟩ := hpath x owner hbound howner
    refine ⟨h.hasMember hmember, ?_, ?_, ?_⟩
    · rw [h.isPrivate_eq]
      exact hvisible
    · intro c
      rw [h.isClass_eq, h.isStatic_eq]
      exact hclass c
    · intro hnone
      refine hobject fun c hc => ?_
      rw [← h.isClass_eq]
      exact hnone c hc

end Reference

/-- The names of members are those of the class, and no other name denotes a member. -/
structure Bindings.Guarded (b : Bindings) (cls : SymbolId) : Prop where
  isSealed : b.table.Sealed
  locals : ∀ name entry, b.scope.locals.get? name = some entry →
    b.table.ownerOf? entry.symbol = none
  members : ∀ name x, b.scope.members.get? name = some x → b.table.HasMember cls name x
  classes : ∀ name c, b.scope.classes.get? name = some c → b.table.ownerOf? c = none
  arrayLength : b.table.ownerOf? b.builtins.arrayLength = none

namespace Bindings.Guarded

variable {env : Env} {name : Ident} {cls x owner : SymbolId}

/-- A bare name of a member belongs to the class around it. -/
theorem symbolNamed (h : env.toBindings.Guarded env.method.cls) (hx : env.symbolNamed name = .ok x)
    (howner : env.table.ownerOf? x = some owner) :
    owner = env.method.cls ∧ env.table.HasMember env.method.cls name.name x := by
  obtain ⟨found, hlookup, rfl, -⟩ := Env.lookup_of_symbolNamed hx
  unfold Scope.lookup at hlookup
  cases hlocal : env.scope.locals.get? name.name with
  | some entry =>
    rw [hlocal] at hlookup
    obtain rfl := Option.some.inj hlookup
    cases howner.symm.trans (h.locals name.name entry hlocal)
  | none =>
    cases hmember : env.scope.members.get? name.name with
    | some y =>
      simp only [hlocal, hmember, Option.some.injEq] at hlookup
      subst hlookup
      have hmember := h.members name.name y hmember
      exact ⟨Option.some.inj (howner.symm.trans hmember.owner), hmember⟩
    | none =>
      simp only [hlocal, hmember, Option.map_eq_some_iff] at hlookup
      obtain ⟨c, hclass, rfl⟩ := hlookup
      cases howner.symm.trans (h.classes name.name c hclass)

/-- A member that is found in a class is visible where it is found. -/
theorem memberNamed (h : env.toBindings.Guarded env.method.cls)
    (hx : env.memberNamed cls name = .ok x) :
    env.table.HasMember cls name.name x ∧ (env.table.isPrivate x = true → cls = env.method.cls) := by
  unfold Env.memberNamed at hx
  dsimp only at hx
  split at hx
  next symbol hfound =>
    obtain rfl := Except.ok.inj hx
    obtain ⟨dict, hdict, hget⟩ := Option.bind_eq_some_iff.1 hfound
    obtain ⟨info, hinfo, rfl⟩ := Option.map_eq_some_iff.1 hdict
    have hkind := SymbolTable.classInfo?_eq_some_iff.1 hinfo
    by_cases hown : cls = env.method.cls
    · rw [if_pos hown] at hget
      exact ⟨h.isSealed.hasMember hkind hget, fun _ => hown⟩
    · rw [if_neg hown] at hget
      obtain ⟨hget, hpublic⟩ := h.isSealed.visible cls info _ _ hkind hget
      refine ⟨h.isSealed.hasMember hkind hget, fun hprivate => ?_⟩
      rw [hpublic] at hprivate
      cases hprivate
  next => cases hx

/-- A member found after a dot is one that may be used there: the class before the dot, or that of
the object, has it under this name, and in a foreign class it is not private. -/
theorem memberOf (h : env.toBindings.Guarded env.method.cls) {before : Reference} {beforeTy : Ty}
    (hty : before.annot.ty = some beforeTy) (hx : env.memberOf before beforeTy name = .ok x)
    (howner : env.table.ownerOf? x = some owner) :
    Reference.Accesses env.table env.method.cls before name.name x owner := by
  unfold Env.memberOf at hx
  split at hx
  next => cases hx
  next c info hbound hkind =>
    have hclass : env.table.kind? c = some (.cls info) := by
      simpa [Reference.kind?, hbound] using hkind
    split at hx
    next => cases hx
    next symbol hfound =>
    split at hx
    next hstatic =>
      obtain rfl := Except.ok.inj hx
      obtain ⟨hmember, hvisible⟩ := h.memberNamed hfound
      obtain rfl := Option.some.inj (howner.symm.trans hmember.owner)
      refine ⟨hmember, hvisible, fun c' hc' _ => ?_, fun hnone => ?_⟩
      · exact ⟨Option.some.inj (hbound.symm.trans hc'), hstatic⟩
      · have hnone := hnone _ hbound
        simp [SymbolTable.isClass, hclass, SymbolKind.isClass, SymbolKind.class?] at hnone
    next => cases hx
  next hmethod hnoclass =>
    have hvalue : ∀ c, before.binding = some c → env.table.isClass c = false := by
      intro c hbound
      cases hkind : env.table.kind? c with
      | none => simp [SymbolTable.isClass, hkind]
      | some kind =>
        cases kind with
        | cls info => exact absurd (by simp [Reference.kind?, hbound, hkind]) (hnoclass c info hbound)
        | _ => simp [SymbolTable.isClass, hkind, SymbolKind.isClass, SymbolKind.class?]
    split at hx
    next cls =>
      obtain ⟨hmember, hvisible⟩ := h.memberNamed hx
      obtain rfl := Option.some.inj (howner.symm.trans hmember.owner)
      refine ⟨hmember, hvisible, fun c hc hclass => ?_, fun _ => hty⟩
      rw [hvalue c hc] at hclass
      cases hclass
    next =>
      split at hx
      next =>
        obtain rfl := Except.ok.inj hx
        rw [h.arrayLength] at howner
        cases howner
      next => cases hx
    next => cases hx

end Bindings.Guarded

/-- Analysis binds the names of a path to members only where they may be used. -/
theorem Reference.analyze_encapsulated {env : Env} (h : env.toBindings.Guarded env.method.cls)
    {path path' : Reference} {ty : Ty} (hfound : path.analyze env = .ok (path', ty)) :
    path'.annot.ty = some ty ∧ ∀ part ∈ path'.paths, part.Encapsulated env.table env.method.cls := by
  induction path generalizing path' ty with
  | this annot =>
    unfold analyze at hfound
    split at hfound
    next => cases hfound
    next =>
    cases hfound
    exact ⟨rfl, List.forall_mem_singleton.2 trivial⟩
  | ident annot name =>
    unfold analyze at hfound
    split at hfound
    next => cases hfound
    next x hx =>
    cases hfound
    refine ⟨rfl, List.forall_mem_singleton.2 ?_⟩
    rintro _ owner ⟨⟩ howner
    exact h.symbolNamed hx howner
  | member annot before name ih =>
    unfold analyze at hfound
    split at hfound
    next => cases hfound
    next before' beforeTy hbefore =>
    split at hfound
    next => cases hfound
    next x hx =>
    cases hfound
    obtain ⟨hty, hparts⟩ := ih hbefore
    refine ⟨rfl, List.forall_mem_cons.2 ⟨?_, hparts⟩⟩
    rintro _ owner ⟨⟩ howner
    exact h.memberOf hty hx howner

end SmallJava
