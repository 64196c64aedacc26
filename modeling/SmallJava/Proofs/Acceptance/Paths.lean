import SmallJava.Proofs.Acceptance.Models

namespace SmallJava

/-- An analysed path denotes what the rules say. -/
inductive Reference.Stands (b : Bindings) (decls : List ClassDef) :
    Reference → Ty → Source.Entity → Prop
  | this {annot cls c} (hmem : cls ∈ decls) (hbound : cls.binding = some c) :
    Stands b decls (.this annot) (.object c) (.value (.object cls.name))
  | symbol {ref x entity} (hbound : ref.binding = some x) (hstands : b.Stands decls x entity) :
    Stands b decls ref (b.table.typeOf x) entity

namespace Reference.Stands

variable {b : Bindings} {decls : List ClassDef} {ref : Reference} {ty : Ty}
  {entity : Source.Entity} {τ : Source.Ty}

/-- What has a value has its type. -/
theorem means (h : ref.Stands b decls ty entity) (hvalue : entity.ty? = some τ) :
    ty.Means decls τ := by
  cases h with
  | this hmem hbound =>
    cases hvalue
    exact .object hmem hbound
  | symbol hbound hstands =>
    cases hstands with
    | place hkind hplace hty =>
      cases hvalue
      exact hty
    | length hkind hty =>
      cases hvalue
      rw [hty]
      exact .int
    | method | cls => cases hvalue

/-- The kind of the symbol says what can be done with it. -/
theorem kind (hdescribes : b.Describes decls) (h : ref.Stands b decls ty entity) :
    match entity with
    | .place _ => ∃ kind, ref.kind? b.table = some kind ∧ kind.isPlace = true
    | .value _ => (∃ annot, ref = .this annot) ∨ ref.kind? b.table = some .arrayLength
    | .method _ => ∃ info, ref.kind? b.table = some (.method info)
    | .cls _ => ∃ info, ref.kind? b.table = some (.cls info) := by
  cases h with
  | this => exact .inl ⟨_, rfl⟩
  | @symbol _ x _ hbound hstands =>
    have hkind : ref.kind? b.table = b.table.kind? x := by
      unfold Reference.kind?
      rw [hbound]
      rfl
    cases hstands with
    | place hkind' hplace hty => exact ⟨_, hkind.trans hkind', hplace⟩
    | length hkind' hty => exact .inr (hkind.trans hkind')
    | method hdeclared => exact ⟨_, hkind.trans hdeclared.kind⟩
    | cls hmem hcls =>
      obtain ⟨c, hdeclared⟩ := hdescribes.declared _ hmem
      obtain rfl := Option.some.inj (hdeclared.bound.symm.trans hcls)
      obtain ⟨info, hinfo, -⟩ := hdeclared.info
      exact ⟨info, hkind.trans hinfo⟩

/-- Values can be told from classes and methods by the kind of the symbol. -/
theorem value_iff (hdescribes : b.Describes decls) (h : ref.Stands b decls ty entity) :
    ((∀ info, ref.kind? b.table ≠ some (.cls info)) ∧
      ∀ info, ref.kind? b.table ≠ some (.method info)) ↔ ∃ τ, entity.ty? = some τ := by
  have hkind := h.kind hdescribes
  cases entity with
  | place τ =>
    obtain ⟨kind, hkind, hplace⟩ := hkind
    refine iff_of_true ?_ ⟨τ, rfl⟩
    rw [hkind]
    constructor <;> rintro info ⟨⟩ <;> cases hplace
  | value τ =>
    refine iff_of_true ?_ ⟨τ, rfl⟩
    obtain ⟨annot, rfl⟩ | hkind := hkind
    · exact ⟨nofun, nofun⟩
    · rw [hkind]
      exact ⟨nofun, nofun⟩
  | method sig =>
    obtain ⟨info, hkind⟩ := hkind
    exact iff_of_false (fun h => h.2 info hkind) (by simp [Source.Entity.ty?])
  | cls sig =>
    obtain ⟨info, hkind⟩ := hkind
    exact iff_of_false (fun h => h.1 info hkind) (by simp [Source.Entity.ty?])

/-- The return type of a declared method denotes a type. -/
theorem denotes_returnType (hknows : b.Knows decls) {sig : Source.MethodSig}
    (h : ref.Stands b decls ty (.method sig)) :
    ∃ τ, Source.Denotes (decls.map ClassDef.sig) sig.returnType τ := by
  cases h with
  | symbol hbound hstands =>
    cases hstands with
    | method hdeclared =>
      obtain ⟨τ, -, hdenotes⟩ := (hknows.resolve_corresponds _).sound _ hdeclared.type
      exact ⟨τ, hdenotes⟩

end Reference.Stands

namespace Typing

variable {b : Bindings} {decls : List ClassDef} {ref : Reference} {ty : Ty}
  {entity : Source.Entity} {span : Span}

/-- A path can be read as a value exactly if it stands for something that has a type. -/
theorem value_corresponds (hdescribes : b.Describes decls) (h : ref.Stands b decls ty entity) :
    Corresponds (Ty.Means decls) (fun ty' => value b.table ref ty = (ty', []))
      (fun τ => entity.ty? = some τ) where
  sound := by
    intro ty' hvalue
    obtain ⟨rfl, hkinds⟩ := value_eq hvalue
    obtain ⟨τ, hτ⟩ := (h.value_iff hdescribes).1 hkinds
    exact ⟨τ, h.means hτ, hτ⟩
  complete := by
    intro τ hτ
    obtain ⟨hcls, hmethod⟩ := (h.value_iff hdescribes).2 ⟨τ, hτ⟩
    refine ⟨ty, h.means hτ, ?_⟩
    unfold value
    split
    next info hkind => exact absurd hkind (hcls info)
    next info hkind => exact absurd hkind (hmethod info)
    next => rfl

/-- A path can be indexed exactly if it stands for an array. -/
theorem element_corresponds (hdescribes : b.Describes decls) (h : ref.Stands b decls ty entity) :
    Corresponds (Ty.Means decls) (fun elem => element b.table ref ty span = (elem, []))
      (fun τ => entity.ty? = some (.array τ)) where
  sound := by
    intro elem helem
    unfold element at helem
    split at helem
    next => cases helem
    next => cases helem
    next => cases helem
    next hthis hcls hmethod =>
    obtain ⟨τ, hτ⟩ := (h.value_iff hdescribes).1 ⟨fun info h => hcls info h, fun info h => hmethod info h⟩
    have hmeans := h.means hτ
    cases hmeans with
    | array helemTy =>
      obtain rfl := (Prod.mk.inj helem).1
      exact ⟨_, helemTy, hτ⟩
    | _ => cases helem
  complete := by
    intro τ hτ
    obtain ⟨hcls, hmethod⟩ := (h.value_iff hdescribes).2 ⟨_, hτ⟩
    have hthis : ∀ annot, ref ≠ .this annot := by
      rintro annot rfl
      cases h with
      | this => cases hτ
      | symbol hbound => cases hbound
    have hmeans := h.means hτ
    cases hmeans with
    | array helemTy =>
      refine ⟨_, helemTy, ?_⟩
      unfold element
      split
      next => exact absurd rfl (hthis _)
      next hkind => exact absurd hkind (hcls _)
      next hkind => exact absurd hkind (hmethod _)
      next => rfl

/-- What has no place cannot be assigned. -/
theorem unassignable?_eq_none_iff (hdescribes : b.Describes decls)
    (h : ref.Stands b decls ty entity) :
    unassignable? b.table ref = none ↔ ∃ τ, entity = .place τ := by
  have hkind := h.kind hdescribes
  cases entity with
  | place τ =>
    refine iff_of_true ?_ ⟨τ, rfl⟩
    obtain ⟨kind, hkind, hplace⟩ := hkind
    unfold unassignable?
    rw [hkind]
    cases ref with
    | this => cases hkind
    | _ => cases kind <;> first | rfl | cases hplace
  | value τ =>
    refine iff_of_false ?_ (by simp)
    obtain ⟨annot, rfl⟩ | hkind := hkind
    · simp [unassignable?]
    · cases ref <;> simp [unassignable?, hkind]
  | method sig =>
    obtain ⟨info, hkind⟩ := hkind
    refine iff_of_false ?_ (by simp)
    cases ref <;> simp [unassignable?, hkind]
  | cls sig =>
    obtain ⟨info, hkind⟩ := hkind
    refine iff_of_false ?_ (by simp)
    cases ref <;> simp [unassignable?, hkind]

/-- An assignment is not reported exactly if its target is a place whose type takes the value. -/
theorem assignment_eq_nil_iff (hdescribes : b.Describes decls) (h : ref.Stands b decls ty entity)
    {found : Ty} {τ : Source.Ty} (hfound : found.Means decls τ) :
    assignment b.table ref ty found span = [] ↔
      ∃ expected, entity = .place expected ∧ expected.Matches τ := by
  have hplace := unassignable?_eq_none_iff hdescribes h
  unfold assignment
  cases hunassignable : unassignable? b.table ref with
  | some what =>
    rw [hunassignable] at hplace
    refine iff_of_false (by simp) ?_
    rintro ⟨expected, rfl, -⟩
    cases hplace.2 ⟨expected, rfl⟩
  | none =>
    obtain ⟨expected, rfl⟩ := hplace.1 hunassignable
    have hagrees := (h.means rfl).agrees_iff hdescribes hfound
    simp only [Source.Entity.place.injEq, exists_eq_left']
    rw [← hagrees]
    cases ty.agrees found <;> simp

end Typing

section Lookup

variable {env : Env} {decls : List ClassDef} {cls other : ClassDef} {E : Source.Env}
  {c x : SymbolId} {name : Ident}

/-- What a name denotes that no variable in force has is not being initialized. -/
theorem Env.Models.ready {found : Resolved} (h : env.Models decls cls E)
    (hlookup : env.scope.lookup name.name = some found) (hvisible : E.visible? name.name = none) :
    env.initializing ≠ some found.symbol :=
  fun hinit => h.declared name.name ((h.initializing name.name _ hlookup).1 hinit) hvisible

/-- The name of a variable in force denotes the variable, except in its own initializer. -/
theorem Env.symbolNamed_variable {τ : Source.Ty} (h : env.Models decls cls E) (annot : Annot)
    (hlookup : env.scope.lookup name.name = some (.localVar x))
    (hvisible : E.visible? name.name = some τ) (hstands : env.Stands decls x (.place τ)) :
    Corresponds (env.Stands decls) (fun x => env.symbolNamed name = .ok x)
      (Source.Refers E (.ident annot name)) := by
  have hready := h.initializing name.name _ hlookup
  constructor
  · intro y hy
    unfold symbolNamed at hy
    rw [hlookup] at hy
    dsimp only at hy
    split at hy
    next => cases hy
    next hother =>
    obtain rfl : x = y := Except.ok.inj hy
    exact ⟨_, hstands, .variable hvisible (mt hready.2 hother)⟩
  · intro entity hrefers
    cases hrefers with
    | «variable» hvar hother =>
      obtain rfl := Option.some.inj (hvisible.symm.trans hvar)
      refine ⟨x, hstands, ?_⟩
      unfold symbolNamed
      rw [hlookup]
      exact if_neg (mt hready.1 hother)
    | ownMember hvar => cases hvisible.symm.trans hvar
    | className hvar => cases hvisible.symm.trans hvar

/-- The name of a member of the class denotes it, if the method may use it. -/
theorem Env.symbolNamed_member {d : MemberDef} (h : env.Models decls cls E) (annot : Annot)
    (hlookup : env.scope.lookup name.name = some (.member x)) (hvisible : E.visible? name.name = none)
    (hd : d ∈ cls.members) (hname : d.name = name.name) (hbound : d.binding = some x) :
    Corresponds (env.Stands decls) (fun x => env.symbolNamed name = .ok x)
      (Source.Refers E (.ident annot name)) := by
  have hmember := fun modifiers => h.models.knows.member_corresponds h.models.mem name.name modifiers
  rw [← h.models.classes, ← h.models.own] at hmember
  have hready : env.initializing ≠ some x := h.ready hlookup hvisible
  have hfound : env.symbolNamed name = if env.method.isStatic && !d.modifiers.isStatic then
      .error (.staticContext name.name name.span) else .ok x := by
    rw [← h.models.knows.isStatic_member h.models.mem hd hbound]
    unfold symbolNamed
    rw [hlookup]
    exact if_neg hready
  rw [h.models.isStatic] at hfound
  constructor
  · intro y hy
    rw [hfound] at hy
    split at hy
    next => cases hy
    next hstatic =>
    obtain rfl := Except.ok.inj hy
    obtain ⟨entity, hstands, hentity⟩ := (hmember _).sound x ⟨d, hd, hname, hbound, rfl⟩
    exact ⟨entity, hstands, .ownMember hvisible hentity (by simpa using hstatic)⟩
  · intro entity hrefers
    cases hrefers with
    | «variable» hvar => cases hvisible.symm.trans hvar
    | ownMember hvar hentity hstatic =>
      obtain ⟨y, hstands, d', hd', hname', hbound', rfl⟩ := (hmember _).complete entity hentity
      have hget := (h.models.members name.name x).2 ⟨d, hd, hname, hbound⟩
      have hget' := (h.models.members name.name y).2 ⟨d', hd', hname', hbound'⟩
      obtain rfl := Option.some.inj (hget.symm.trans hget')
      refine ⟨x, hstands, hfound.trans (if_neg ?_)⟩
      have hsame := (h.models.knows.isStatic_member h.models.mem hd hbound).symm.trans
        (h.models.knows.isStatic_member h.models.mem hd' hbound')
      simpa [hsame] using hstatic
    | className hvar hnot =>
      rw [h.models.own, Bindings.mem_memberNames_iff] at hnot
      exact absurd ⟨d, hd, hname⟩ hnot

/-- Any other name is the name of a class. -/
theorem Env.symbolNamed_class (h : env.Models decls cls E) (annot : Annot)
    (hlookup : env.scope.lookup name.name = (env.scope.class? name.name).map .cls)
    (hvisible : E.visible? name.name = none) (hnone : name.name ∉ E.cls.memberNames) :
    Corresponds (env.Stands decls) (fun x => env.symbolNamed name = .ok x)
      (Source.Refers E (.ident annot name)) := by
  have hclasses := h.models.classes
  constructor
  · intro y hy
    unfold symbolNamed at hy
    rw [hlookup] at hy
    cases hcls : env.scope.class? name.name with
    | none =>
      rw [hcls] at hy
      cases hy
    | some c =>
      rw [hcls] at hy
      dsimp only [Option.map_some] at hy
      split at hy
      next => cases hy
      next =>
      obtain rfl : c = y := Except.ok.inj hy
      obtain ⟨found, hmem, hname, hbound⟩ := h.models.knows.class?_eq_some_iff.1 hcls
      refine ⟨_, .cls hmem hbound, .className hvisible hnone ?_ hname⟩
      rw [hclasses]
      exact List.mem_map_of_mem hmem
  · intro entity hrefers
    cases hrefers with
    | «variable» hvar => cases hvisible.symm.trans hvar
    | @ownMember _ _ modifiers _ hvar hentity =>
      have hmember := h.models.knows.member_corresponds h.models.mem name.name modifiers
      rw [← hclasses, ← h.models.own] at hmember
      obtain ⟨y, -, d, hd, hname, -⟩ := hmember.complete entity hentity
      rw [h.models.own, Bindings.mem_memberNames_iff] at hnone
      exact absurd ⟨d, hd, hname⟩ hnone
    | className hvar hnot hmem hname =>
      rw [hclasses] at hmem
      obtain ⟨found, hfound, rfl⟩ := List.mem_map.1 hmem
      obtain ⟨c, hdeclared⟩ := h.models.knows.describes.declared found hfound
      have hcls := h.models.knows.class?_eq_some_iff.2 ⟨found, hfound, hname, hdeclared.bound⟩
      rw [hcls] at hlookup
      refine ⟨c, .cls hfound hdeclared.bound, ?_⟩
      unfold symbolNamed
      rw [hlookup]
      exact if_neg (h.ready hlookup hvisible)

/-- A bare name denotes what the rules say. -/
theorem Env.symbolNamed_corresponds (h : env.Models decls cls E) (annot : Annot) (name : Ident) :
    Corresponds (env.Stands decls) (fun x => env.symbolNamed name = .ok x)
      (Source.Refers E (.ident annot name)) := by
  obtain ⟨x, τ, hlookup, hvisible, hstands⟩ | ⟨x, hlookup, hvisible, d, hd, hname, hbound⟩ |
    ⟨hlookup, hvisible, hnone⟩ := h.models.lookup_cases name.name
  · exact symbolNamed_variable h annot hlookup hvisible hstands
  · exact symbolNamed_member h annot hlookup hvisible hd hname hbound
  · exact symbolNamed_class h annot hlookup hvisible hnone

/-- The member of a class that a name denotes, if it is visible. -/
theorem Env.memberNamed_eq_ok_iff (h : env.toBindings.Models decls cls env.method E)
    (hmem : other ∈ decls) (hbound : other.binding = some c) :
    env.memberNamed c name = .ok x ↔ ∃ d ∈ other.members, d.name = name.name ∧
      d.binding = some x ∧ E.Sees other.sig d.modifiers := by
  obtain ⟨c', hdeclared⟩ := h.knows.describes.declared other hmem
  obtain rfl := Option.some.inj (hdeclared.bound.symm.trans hbound)
  obtain ⟨info, hkind, hinfo⟩ := hdeclared.info
  have hown : c' = env.method.cls ↔ other.name = cls.name := by
    constructor
    · rintro rfl
      exact h.knows.describes.name_eq hmem h.mem hbound h.bound
    · intro hname
      obtain rfl := h.knows.describes.eq_of_name hmem h.mem hname
      exact Option.some.inj (hbound.symm.trans h.bound)
  have hclassInfo := SymbolTable.classInfo?_eq_some_iff.2 hkind
  have hget : env.memberNamed c' name = .ok x ↔
      (if c' = env.method.cls then info.members else info.visible).get? name.name = some x := by
    unfold memberNamed
    simp only [hclassInfo, Option.map_some, Option.bind_some]
    split
    next y hy => simp [hy]
    next hnone => simp [hnone]
  unfold Source.Env.Sees
  rw [hget, h.own]
  by_cases heq : c' = env.method.cls
  · have hname := hown.1 heq
    rw [if_pos heq, hinfo.members]
    simp [ClassDef.sig, hname]
  · have hname := mt hown.2 heq
    rw [if_neg heq, hinfo.visible]
    simp [ClassDef.sig, hname]

/-- After a value, the type of the value says what a name denotes. -/
theorem Env.memberOf_eq {owner : Reference} (ownerTy : Ty) (name : Ident)
    (hcls : ∀ info, owner.kind? env.table ≠ some (.cls info))
    (hmethod : ∀ info, owner.kind? env.table ≠ some (.method info)) :
    env.memberOf owner ownerTy name = match ownerTy with
      | .object c => env.memberNamed c name
      | .array _ =>
        if name.name = "length" then .ok env.builtins.arrayLength
        else .error (.noSuchMember name.name "an array" "" name.span)
      | _ => .error (.memberOfNonObject name.name name.span) := by
  unfold memberOf
  split
  next hkind => exact absurd hkind (hmethod _)
  next hkind => exact absurd hkind (hcls _)
  next => rfl

/-- Selection on a value: the analysis finds a member by the class of the value exactly where the
    judgement selects one. Classes and methods as owners are excluded, since there the owner is no
    value. -/
theorem Env.memberOfValue_corresponds (h : env.Models decls cls E) {owner : Reference} {ownerTy : Ty}
    {object : Source.Entity} {τ : Source.Ty} (hcls : ∀ info, owner.kind? env.table ≠ some (.cls info))
    (hmethod : ∀ info, owner.kind? env.table ≠ some (.method info)) (hτ : object.ty? = some τ)
    (hmeans : ownerTy.Means decls τ) :
    Corresponds (env.Stands decls) (fun x => env.memberOf owner ownerTy name = .ok x)
      (Source.Selects E object name.name) := by
  have hclasses := h.models.classes
  have hnot : ∀ sig, object ≠ .cls sig := by
    rintro sig rfl
    cases hτ
  simp only [env.memberOf_eq ownerTy name hcls hmethod]
  cases hmeans with
  | @object other c hmem hbound =>
    have hmember := h.models.knows.member_corresponds hmem name.name
    rw [← hclasses] at hmember
    constructor
    · intro x hx
      obtain ⟨d, hd, hname, hx, hsees⟩ := (memberNamed_eq_ok_iff h.models hmem hbound).1 hx
      obtain ⟨entity, hstands, hentity⟩ := (hmember _).sound x ⟨d, hd, hname, hx, rfl⟩
      refine ⟨entity, hstands, .member ?_ hτ hentity hsees⟩
      rw [hclasses]
      exact List.mem_map_of_mem hmem
    · intro entity hselects
      cases hselects with
      | static => exact absurd rfl (hnot _)
      | @member _ found _ _ _ hfound hobject hentity hsees =>
        rw [hclasses] at hfound
        obtain ⟨found, hin, rfl⟩ := List.mem_map.1 hfound
        have hname := Source.Ty.object.inj (Option.some.inj (hτ.symm.trans hobject))
        obtain rfl := h.models.knows.describes.eq_of_name hmem hin hname
        obtain ⟨x, hstands, d, hd, hname, hx, rfl⟩ := (hmember _).complete entity hentity
        exact ⟨x, hstands, (memberNamed_eq_ok_iff h.models hmem hbound).2 ⟨d, hd, hname, hx, hsees⟩⟩
      | length harray => cases hτ.symm.trans harray
  | array =>
    have hlength : env.Stands decls env.builtins.arrayLength (.value .int) :=
      .length h.models.knows.arrayLength h.models.knows.arrayLengthTy
    constructor
    · intro x hx
      dsimp only at hx
      split at hx
      next hname =>
        obtain rfl := Except.ok.inj hx
        exact ⟨_, hlength, .length hτ hname⟩
      next => cases hx
    · intro entity hselects
      cases hselects with
      | static => exact absurd rfl (hnot _)
      | member _ hobject => cases hτ.symm.trans hobject
      | length _ hname => exact ⟨_, hlength, if_pos hname⟩
  | _ =>
    constructor
    · rintro x ⟨⟩
    · intro entity hselects
      cases hselects with
      | static => exact absurd rfl (hnot _)
      | member _ hobject => cases hτ.symm.trans hobject
      | length harray => cases hτ.symm.trans harray

/-- A class before the dot gives access to its static members. -/
theorem Env.memberOfClass_corresponds (h : env.Models decls cls E) {owner : Reference} (ownerTy : Ty)
    (hmem : other ∈ decls) (hother : other.binding = some c) (hbound : owner.binding = some c) :
    Corresponds (env.Stands decls) (fun x => env.memberOf owner ownerTy name = .ok x)
      (Source.Selects E (.cls other.sig) name.name) := by
  have hmember := h.models.knows.member_corresponds hmem name.name
  rw [← h.models.classes] at hmember
  have hfound : ∀ x, env.memberOf owner ownerTy name = .ok x ↔
      env.memberNamed c name = .ok x ∧ env.table.isStatic x = true := by
    obtain ⟨c', hdeclared⟩ := h.models.knows.describes.declared other hmem
    obtain rfl := Option.some.inj (hdeclared.bound.symm.trans hother)
    obtain ⟨info, hinfo, -⟩ := hdeclared.info
    intro x
    unfold memberOf Reference.kind?
    rw [hbound, Option.bind_some, hinfo]
    dsimp only
    cases env.memberNamed c' name with
    | error fatal => simp
    | ok y =>
      dsimp only
      by_cases hstatic : env.table.isStatic y = true
      · rw [if_pos hstatic]
        constructor
        · rintro ⟨⟩
          exact ⟨rfl, hstatic⟩
        · rintro ⟨⟨⟩, -⟩
          rfl
      · rw [if_neg hstatic]
        constructor
        · rintro ⟨⟩
        · rintro ⟨⟨⟩, hx⟩
          exact absurd hx hstatic
  simp only [hfound, memberNamed_eq_ok_iff h.models hmem hother]
  constructor
  · rintro x ⟨⟨d, hd, hname, hx, hsees⟩, hstatic⟩
    rw [h.models.knows.isStatic_member hmem hd hx] at hstatic
    obtain ⟨entity, hstands, hentity⟩ := (hmember _).sound x ⟨d, hd, hname, hx, rfl⟩
    exact ⟨entity, hstands, .static hentity hsees hstatic⟩
  · intro entity hselects
    cases hselects with
    | static hentity hsees hstatic =>
      obtain ⟨x, hstands, d, hd, hname, hx, rfl⟩ := (hmember _).complete entity hentity
      rw [← h.models.knows.isStatic_member hmem hd hx] at hstatic
      exact ⟨x, hstands, ⟨d, hd, hname, hx, hsees⟩, hstatic⟩
    | member _ hobject => cases hobject
    | length harray => cases harray

/-- What a name denotes after a dot. -/
theorem Env.memberOf_corresponds (h : env.Models decls cls E) {owner : Reference} {ownerTy : Ty}
    {object : Source.Entity} (howner : owner.Stands env.toBindings decls ownerTy object) :
    Corresponds (env.Stands decls) (fun x => env.memberOf owner ownerTy name = .ok x)
      (Source.Selects E object name.name) := by
  have hdescribes := h.models.knows.describes
  cases hobject : object.ty? with
  | some τ =>
    obtain ⟨hcls, hmethod⟩ := (howner.value_iff hdescribes).2 ⟨τ, hobject⟩
    exact memberOfValue_corresponds h hcls hmethod hobject (howner.means hobject)
  | none =>
    cases object with
    | place τ | value τ => cases hobject
    | method sig =>
      obtain ⟨info, hkind⟩ := howner.kind hdescribes
      constructor
      · intro x hx
        unfold memberOf at hx
        rw [hkind] at hx
        cases hx
      · rintro entity (_ | ⟨_, hobject⟩ | harray)
        · cases hobject
        · cases harray
    | cls sig =>
      generalize hentity : Source.Entity.cls sig = entity at howner
      cases howner with
      | this => cases hentity
      | symbol hbound hstands =>
        cases hstands with
        | cls hmem hcls => exact memberOfClass_corresponds h _ hmem hcls hbound
        | _ => cases hentity

/-- Paths are resolved to what they denote. -/
theorem Reference.analyze_corresponds (h : env.Models decls cls E) (ref : Reference) :
    Corresponds (fun found entity => found.1.Stands env.toBindings decls found.2 entity)
      (fun found => ref.analyze env = .ok found) (Source.Refers E ref) := by
  induction ref with
  | this annot =>
    unfold analyze
    constructor
    · intro found hfound
      split at hfound
      next => cases hfound
      next hinstance =>
      cases hfound
      refine ⟨_, .this h.models.mem h.models.bound, ?_⟩
      have hthis : Source.Refers E (.this annot) (.value (.object E.cls.name)) :=
        .this (by simpa [h.models.isStatic] using hinstance)
      rwa [h.models.own] at hthis
    · intro entity hrefers
      cases hrefers with
      | this hinstance =>
        rw [h.models.own]
        refine ⟨(_, _), .this h.models.mem h.models.bound, if_neg ?_⟩
        simp [h.models.isStatic, hinstance]
  | ident annot name =>
    have hname := env.symbolNamed_corresponds h annot name
    unfold analyze
    constructor
    · intro found hfound
      split at hfound
      next => cases hfound
      next x hx =>
      cases hfound
      obtain ⟨entity, hstands, hrefers⟩ := hname.sound x hx
      exact ⟨entity, .symbol rfl hstands, hrefers⟩
    · intro entity hrefers
      obtain ⟨x, hstands, hx⟩ := hname.complete entity hrefers
      let annot := { annot with ty := some (env.table.typeOf x) }
      refine ⟨(.ident annot { name with binding := some x }, _), .symbol rfl hstands, ?_⟩
      rw [hx]
      rfl
  | member annot owner name ih =>
    unfold analyze
    constructor
    · intro found hfound
      split at hfound
      next => cases hfound
      next owner' ownerTy howner =>
      obtain ⟨object, hobject, hrefers⟩ := ih.sound _ howner
      split at hfound
      next => cases hfound
      next x hx =>
      cases hfound
      obtain ⟨entity, hstands, hselects⟩ := (env.memberOf_corresponds h hobject).sound x hx
      exact ⟨entity, .symbol rfl hstands, .member hrefers hselects⟩
    · intro entity hrefers
      cases hrefers with
      | member howner hselects =>
        obtain ⟨⟨owner', ownerTy⟩, hobject, howner'⟩ := ih.complete _ howner
        obtain ⟨x, hstands, hx⟩ := (env.memberOf_corresponds h hobject).complete entity hselects
        let annot := { annot with ty := some (env.table.typeOf x) }
        refine ⟨(.member annot owner' { name with binding := some x }, _), .symbol rfl hstands, ?_⟩
        rw [howner']
        dsimp only
        rw [hx]
        rfl

end Lookup

end SmallJava
