import SmallJava.Proofs.Analysis.Ensures
import SmallJava.Proofs.Typing.Judgement

namespace SmallJava

/-- All declarations of the table are among those of the signature. -/
def SymbolTable.Within (table : SymbolTable) (sig : Signature) : Prop :=
  ∀ x kind, table.kind? x = some kind →
    sig.kind? x = some kind ∧ sig.typeOf x = table.typeOf x

/-- The declarations agree with each other. -/
structure SymbolTable.Coherent (table : SymbolTable) (builtins : Builtins) : Prop where
  members : ∀ cls info name x, table.classInfo? cls = some info →
    info.members.get? name = some x ∨ info.visible.get? name = some x →
      table.signature.MemberOf cls x
  params : ∀ m info p, table.kind? m = some (.method info) → p ∈ info.params →
    table.kind? p = some .param
  written : ∀ x kind, table.kind? x = some kind → (table.typeOf x).isWritten = true
  arrayLength : table.kind? builtins.arrayLength = some .arrayLength
  arrayLengthTy : table.typeOf builtins.arrayLength = .int

/-- The names in force where an expression stands mean what the judgement says. -/
structure Env.Sound (env : Env) (Γ : Context) (vars : List SymbolId) : Prop where
  within : env.table.Within Γ.sig
  coherent : env.table.Coherent env.builtins
  cls : env.method.cls = Γ.cls
  isStatic : env.method.isStatic = Γ.isStatic
  returnTy : env.method.returnTy = Γ.returnTy
  written : Γ.returnTy.isWritten = true
  own : ∀ name x, env.scope.members.get? name = some x → env.table.signature.MemberOf Γ.cls x
  classes : ∀ name x, env.scope.classes.get? name = some x →
    ∃ info, env.table.kind? x = some (.cls info)
  locals : ∀ name entry, env.scope.locals.get? name = some entry →
    env.initializing = some entry.symbol ∨ entry.symbol ∈ vars
  vars : ∀ x ∈ vars, env.table.kind? x = some .localVar ∨ env.table.kind? x = some .param

namespace Signature.MemberOf

variable {table : SymbolTable} {sig : Signature} {cls x : SymbolId}

/-- Members of the table are members in the signature. -/
theorem within (hmember : table.signature.MemberOf cls x) (hwithin : table.Within sig) :
    sig.MemberOf cls x := by
  cases hmember with
  | field hkind => exact .field (hwithin x _ hkind).1
  | method hkind howner => exact .method (hwithin x _ hkind).1 howner

/-- Whether a member is static is the same in the table and in the signature. -/
theorem isStatic_eq (hmember : table.signature.MemberOf cls x) (hwithin : table.Within sig) :
    table.isStatic x = sig.isStatic x := by
  cases hmember with
  | field hkind =>
    rw [sig.isStatic_of_field (hwithin x _ hkind).1]
    exact table.signature.isStatic_of_field hkind
  | method hkind =>
    rw [sig.isStatic_of_method (hwithin x _ hkind).1]
    exact table.signature.isStatic_of_method hkind

theorem isSome (hmember : table.signature.MemberOf cls x) : (table.kind? x).isSome := by
  cases hmember with
  | field hkind => exact Option.isSome_iff_exists.2 ⟨_, hkind⟩
  | method hkind => exact Option.isSome_iff_exists.2 ⟨_, hkind⟩

theorem typeOf_eq (hmember : table.signature.MemberOf cls x) (hwithin : table.Within sig) :
    table.typeOf x = sig.typeOf x := by
  cases hmember with
  | field hkind => exact (hwithin x _ hkind).2.symm
  | method hkind => exact (hwithin x _ hkind).2.symm

end Signature.MemberOf

namespace Reference

variable {Γ : Context} {vars : List SymbolId}

/-- A value is a variable, a field or the length of an array, apart from `this`. -/
theorem Value.kind {ref : Reference} {ty : Ty} (hvalue : ref.Value Γ vars ty) {x : SymbolId}
    (hbound : ref.binding = some x) :
    Γ.sig.kind? x = some .localVar ∨ Γ.sig.kind? x = some .param ∨
      (∃ cls modifiers, Γ.sig.kind? x = some (.field cls modifiers)) ∨
        Γ.sig.kind? x = some .arrayLength := by
  cases hvalue with
  | this => cases hbound
  | «variable» hbound' _ hkind =>
    obtain rfl := Option.some.inj (hbound'.symm.trans hbound)
    obtain hkind | hkind := hkind
    · exact .inl hkind
    · exact .inr (.inl hkind)
  | ownField hbound' hkind =>
    obtain rfl := Option.some.inj (hbound'.symm.trans hbound)
    exact .inr (.inr (.inl ⟨_, _, hkind⟩))
  | staticField hbound' hkind =>
    obtain rfl := Option.some.inj (hbound'.symm.trans hbound)
    exact .inr (.inr (.inl ⟨_, _, hkind⟩))
  | field hbound' hkind =>
    obtain rfl := Option.some.inj (hbound'.symm.trans hbound)
    exact .inr (.inr (.inl ⟨_, _, hkind⟩))
  | length hbound' hkind =>
    obtain rfl := Option.some.inj (hbound'.symm.trans hbound)
    exact .inr (.inr (.inr hkind))

theorem Callee.kind {ref : Reference} {m : SymbolId} (hcallee : ref.Callee Γ vars m) :
    ref.binding = some m ∧ ∃ info, Γ.sig.kind? m = some (.method info) := by
  cases hcallee with
  | own hbound hkind => exact ⟨hbound, _, hkind⟩
  | static hbound hkind => exact ⟨hbound, _, hkind⟩
  | «instance» hbound hkind => exact ⟨hbound, _, hkind⟩

/-- All values but `this` are bound to a symbol. -/
theorem Value.exists_binding {ref : Reference} {ty : Ty} (hvalue : ref.Value Γ vars ty)
    (hthis : ∀ annot, ref ≠ .this annot) : ∃ x, ref.binding = some x := by
  cases hvalue with
  | this => exact absurd rfl (hthis _)
  | «variable» hbound => exact ⟨_, hbound⟩
  | ownField hbound => exact ⟨_, hbound⟩
  | staticField hbound => exact ⟨_, hbound⟩
  | field hbound => exact ⟨_, hbound⟩
  | length hbound => exact ⟨_, hbound⟩

end Reference

namespace Env.Sound

variable {env : Env} {Γ : Context} {vars : List SymbolId}

/-- A bare name denotes a variable, a member of the class, or a class. -/
theorem ident_denotes (henv : env.Sound Γ vars) {annot : Annot} {name : Ident} {x : SymbolId}
    (hnamed : env.symbolNamed name = .ok x) :
    Reference.Denotes Γ vars (.ident annot { name with binding := some x }) (env.table.typeOf x) ∧
      (env.table.kind? x).isSome := by
  unfold symbolNamed at hnamed
  split at hnamed
  next => cases hnamed
  next found hlookup =>
  unfold Scope.lookup at hlookup
  cases hlocal : env.scope.locals.get? name.name with
  | some entry =>
    rw [hlocal] at hlookup
    obtain rfl := Option.some.inj hlookup
    split at hnamed
    next => cases hnamed
    next hinit =>
    obtain rfl := Except.ok.inj hnamed
    obtain hself | hvar := henv.locals _ _ hlocal
    · exact absurd hself hinit
    · have hkind := henv.vars _ hvar
      have hfound : Γ.sig.kind? entry.symbol = some .localVar ∨
          Γ.sig.kind? entry.symbol = some .param :=
        hkind.imp (fun h => (henv.within _ _ h).1) fun h => (henv.within _ _ h).1
      have hty : Γ.sig.typeOf entry.symbol = env.table.typeOf entry.symbol := by
        obtain h | h := hkind
        · exact (henv.within _ _ h).2
        · exact (henv.within _ _ h).2
      have hdeclared : (env.table.kind? entry.symbol).isSome := by
        obtain h | h := hkind <;> simp [h]
      refine ⟨?_, hdeclared⟩
      change Reference.Denotes Γ vars _ (env.table.typeOf entry.symbol)
      rw [← hty]
      exact .value (.variable rfl hvar hfound)
  | none =>
    rw [hlocal] at hlookup
    cases hmember : env.scope.members.get? name.name with
    | some symbol =>
      rw [hmember] at hlookup
      obtain rfl := Option.some.inj hlookup
      split at hnamed
      next => cases hnamed
      next =>
      dsimp only at hnamed
      have hown := henv.own _ _ hmember
      split at hnamed
      next => cases hnamed
      next hcontext =>
      obtain rfl := Except.ok.inj hnamed
      have hstatic : Γ.isStatic = true → Γ.sig.isStatic symbol = true := by
        intro hstatic
        rw [← hown.isStatic_eq henv.within]
        simpa [henv.isStatic, hstatic] using hcontext
      refine ⟨?_, hown.isSome⟩
      rw [hown.typeOf_eq henv.within]
      cases hown.within henv.within with
      | field hkind =>
        rw [Γ.sig.isStatic_of_field hkind] at hstatic
        exact .value (.ownField rfl hkind hstatic)
      | method hkind howner =>
        rw [Γ.sig.isStatic_of_method hkind] at hstatic
        exact .method (.own rfl hkind howner hstatic) rfl
    | none =>
      rw [hmember] at hlookup
      obtain ⟨symbol, hclass, rfl⟩ := Option.map_eq_some_iff.1 hlookup
      split at hnamed
      next => cases hnamed
      next =>
      obtain rfl := Except.ok.inj hnamed
      obtain ⟨info, hkind⟩ := henv.classes _ _ hclass
      exact ⟨.cls rfl (henv.within _ _ hkind).1, Option.isSome_iff_exists.2 ⟨_, hkind⟩⟩

/-- A member that is found under a name is one of the class. -/
theorem memberNamed_memberOf (henv : env.Sound Γ vars) {cls x : SymbolId} {name : Ident}
    (hnamed : env.memberNamed cls name = .ok x) : env.table.signature.MemberOf cls x := by
  unfold memberNamed at hnamed
  dsimp only at hnamed
  split at hnamed
  next symbol hfound =>
    obtain rfl := Except.ok.inj hnamed
    obtain ⟨dict, hdict, hget⟩ := Option.bind_eq_some_iff.1 hfound
    obtain ⟨info, hinfo, rfl⟩ := Option.map_eq_some_iff.1 hdict
    refine henv.coherent.members cls info name.name symbol hinfo ?_
    split at hget
    · exact .inl hget
    · exact .inr hget
  next => cases hnamed

/-- A member of an object is a field or a method of it, or belongs to its class. -/
theorem member_denotes_of_object (henv : env.Sound Γ vars) {annot : Annot} {owner : Reference}
    {name : Ident} {cls x : SymbolId} (howner : owner.Value Γ vars (.object cls))
    (hmember : env.table.signature.MemberOf cls x) :
    Reference.Denotes Γ vars (.member annot owner { name with binding := some x })
      (env.table.typeOf x) := by
  rw [hmember.typeOf_eq henv.within]
  cases hmember.within henv.within with
  | @field modifiers hkind =>
    cases hstatic : modifiers.isStatic with
    | true => exact .value (.staticField rfl hkind hstatic)
    | false => exact .value (.field rfl hkind hstatic howner)
  | @method info hkind hclass =>
    cases hstatic : info.modifiers.isStatic with
    | true => exact .method (.static rfl hkind hstatic) rfl
    | false => exact .method (.instance rfl hkind hstatic (hclass ▸ howner)) rfl

/-- A static member of a class needs no object. -/
theorem member_denotes_of_static (henv : env.Sound Γ vars) {annot : Annot} {owner : Reference}
    {name : Ident} {cls x : SymbolId} (hmember : env.table.signature.MemberOf cls x)
    (hstatic : env.table.isStatic x = true) :
    Reference.Denotes Γ vars (.member annot owner { name with binding := some x })
      (env.table.typeOf x) := by
  rw [hmember.typeOf_eq henv.within]
  rw [hmember.isStatic_eq henv.within] at hstatic
  cases hmember.within henv.within with
  | field hkind =>
    rw [Γ.sig.isStatic_of_field hkind] at hstatic
    exact .value (.staticField rfl hkind hstatic)
  | method hkind =>
    rw [Γ.sig.isStatic_of_method hkind] at hstatic
    exact .method (.static rfl hkind hstatic) rfl

theorem isWritten_typeOf (henv : env.Sound Γ vars) {x : SymbolId}
    (hdeclared : (env.table.kind? x).isSome) : (env.table.typeOf x).isWritten = true := by
  obtain ⟨kind, hkind⟩ := Option.isSome_iff_exists.1 hdeclared
  exact henv.coherent.written x kind hkind

/-- The kind of what a path denotes is the one in the signature. -/
theorem kind?_eq (henv : env.Sound Γ vars) {ref : Reference}
    (hdeclared : ∀ x, ref.binding = some x → (env.table.kind? x).isSome) :
    ref.kind? env.table = ref.binding.bind Γ.sig.kind? := by
  unfold Reference.kind?
  cases hbound : ref.binding with
  | none => rfl
  | some x =>
    obtain ⟨kind, hkind⟩ := Option.isSome_iff_exists.1 (hdeclared x hbound)
    rw [Option.bind_some, Option.bind_some, hkind, (henv.within x kind hkind).1]

/-- A path that is neither a class nor a method denotes a value. -/
theorem value_of_denotes (henv : env.Sound Γ vars) {ref : Reference} {ty : Ty}
    (hdenotes : ref.Denotes Γ vars ty)
    (hdeclared : ∀ x, ref.binding = some x → (env.table.kind? x).isSome)
    (hcls : ∀ info, ref.kind? env.table ≠ some (.cls info))
    (hmethod : ∀ info, ref.kind? env.table ≠ some (.method info)) : ref.Value Γ vars ty := by
  rw [henv.kind?_eq hdeclared] at hcls hmethod
  cases hdenotes with
  | value hvalue => exact hvalue
  | cls hbound hkind => exact absurd (by rw [hbound]; exact hkind) (hcls _)
  | method hcallee =>
    obtain ⟨hbound, info, hkind⟩ := hcallee.kind
    exact absurd (by rw [hbound]; exact hkind) (hmethod info)

/-- The name after a dot denotes a member of what stands before it. -/
theorem member_denotes (henv : env.Sound Γ vars) {annot : Annot} {owner : Reference} {ownerTy : Ty}
    {name : Ident} {x : SymbolId} (howner : owner.Denotes Γ vars ownerTy)
    (hdeclared : ∀ x, owner.binding = some x → (env.table.kind? x).isSome)
    (hmember : env.memberOf owner ownerTy name = .ok x) :
    Reference.Denotes Γ vars (.member annot owner { name with binding := some x })
      (env.table.typeOf x) ∧ (env.table.kind? x).isSome := by
  unfold memberOf at hmember
  split at hmember
  next => cases hmember
  next cls info hbound hkind =>
    split at hmember
    next => cases hmember
    next symbol hnamed =>
    split at hmember
    next hstatic =>
      obtain rfl := Except.ok.inj hmember
      have hmemberOf := henv.memberNamed_memberOf hnamed
      exact ⟨henv.member_denotes_of_static hmemberOf hstatic, hmemberOf.isSome⟩
    next => cases hmember
  next hmethod hcls =>
    have hvalue : owner.Value Γ vars ownerTy := by
      refine henv.value_of_denotes howner hdeclared ?_ fun info h => hmethod info h
      intro info hkind
      obtain ⟨c, hbound, -⟩ := Option.bind_eq_some_iff.1 hkind
      exact hcls c info hbound hkind
    cases ownerTy with
    | object cls =>
      have hmemberOf := henv.memberNamed_memberOf hmember
      exact ⟨henv.member_denotes_of_object hvalue hmemberOf, hmemberOf.isSome⟩
    | array elem =>
      dsimp only at hmember
      split at hmember
      next =>
        obtain rfl := Except.ok.inj hmember
        have hkind := henv.coherent.arrayLength
        rw [henv.coherent.arrayLengthTy]
        exact ⟨.value (.length rfl (henv.within _ _ hkind).1 hvalue),
          Option.isSome_iff_exists.2 ⟨_, hkind⟩⟩
      next => cases hmember
    | _ => cases hmember

end Env.Sound

namespace Reference

variable {env : Env} {Γ : Context} {vars : List SymbolId}

/-- A path that is analysed denotes something of the type it is given. -/
theorem analyze_denotes (henv : env.Sound Γ vars) {ref ref' : Reference} {ty : Ty}
    (hanalyze : ref.analyze env = .ok (ref', ty)) :
    ref'.Denotes Γ vars ty ∧ ty.isWritten = true ∧
      ∀ x, ref'.binding = some x → (env.table.kind? x).isSome := by
  induction ref generalizing ref' ty with
  | this annot =>
    unfold analyze at hanalyze
    split at hanalyze
    next => cases hanalyze
    next hcontext =>
    cases hanalyze
    have hinstance : Γ.isStatic = false := by
      rw [← henv.isStatic]
      simpa using hcontext
    rw [henv.cls]
    exact ⟨.value (.this hinstance), rfl, nofun⟩
  | ident annot name =>
    unfold analyze at hanalyze
    split at hanalyze
    next => cases hanalyze
    next symbol hnamed =>
    cases hanalyze
    obtain ⟨hdenotes, hdeclared⟩ := henv.ident_denotes hnamed
    refine ⟨hdenotes, henv.isWritten_typeOf hdeclared, ?_⟩
    rintro _ ⟨⟩
    exact hdeclared
  | member annot owner name ih =>
    unfold analyze at hanalyze
    split at hanalyze
    next => cases hanalyze
    next owner' ownerTy howner =>
    split at hanalyze
    next => cases hanalyze
    next symbol hmember =>
    cases hanalyze
    obtain ⟨howner, -, hdeclared⟩ := ih howner
    obtain ⟨hdenotes, hdeclared⟩ := henv.member_denotes howner hdeclared hmember
    refine ⟨hdenotes, henv.isWritten_typeOf hdeclared, ?_⟩
    rintro _ ⟨⟩
    exact hdeclared

/-- A checked path ends the analysis, or denotes something of the type it is given. -/
theorem check_ensures {ν : Type} (env : Env) (rebuild : Reference → ν) (ref : Reference) :
    (ref.check env rebuild).Ensures fun found => ∀ Γ vars, env.Sound Γ vars →
      found.1.Denotes Γ vars found.2 ∧ found.2.isWritten = true ∧
        ∀ x, found.1.binding = some x → (env.table.kind? x).isSome := by
  unfold check
  split
  next found hanalyze => exact Check.ensures_pure fun Γ vars henv => analyze_denotes henv hanalyze
  next => exact Check.ensures_abort

end Reference

end SmallJava
