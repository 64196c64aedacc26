import SmallJava.Proofs.Declaration.Declare
import SmallJava.Proofs.Typing.StmtSoundness

namespace SmallJava

open Walk

namespace Scope

/-- At the start of a method no variable is in force. -/
theorem covered_enterMethod (scope : Scope) : scope.enterMethod.Covered fun _ => [] where
  locals := by
    intro name entry hget
    cases hget
  shadowed := by
    intro hidden hmem
    cases hmem
  sorted := List.Pairwise.nil
  mono := fun _ _ _ _ => List.Subset.refl _

end Scope

/-- What the entry of parameters ensures: they are in force in order. -/
structure ParamDef.EntersAll (params : List ParamDef) (before : Bindings)
    (params' : List ParamDef) (after : Bindings) : Prop where
  same : params' = params
  table : after.table = before.table
  builtins : after.builtins = before.builtins
  classes : after.scope.classes = before.scope.classes
  members : after.scope.members = before.scope.members
  depth : after.scope.depth = before.scope.depth
  covered : ∀ ids vars, params.map (·.binding) = ids.map some → before.scope.Covered vars →
    after.scope.Covered
      (Scope.extend vars before.scope.depth (vars before.scope.depth ++ ids))

/-- Entering one parameter puts it on top of the frame under its declared symbol and changes no
    table. -/
theorem ParamDef.enter_ensures (param : ParamDef) :
    param.enter.Ensures fun before param' after => EntersAll [param] before [param'] after := by
  refine ensures_get.bind fun bindings => ?_
  cases hbound : param.binding with
  | none =>
    refine ensures_pure ?_
    rintro mid before ⟨rfl, rfl⟩
    refine ⟨rfl, rfl, rfl, rfl, rfl, rfl, fun ids vars hids _ => ?_⟩
    cases ids with
    | nil => cases hids
    | cons x rest =>
      simp only [List.map_cons, List.map_nil, hbound] at hids
      cases hids
  | some x =>
    refine (ensures_lift Check.ensures_orAbort).bind fun scope => ?_
    refine ensures_set.bind fun _ => ensures_pure ?_
    rintro after mid hset mid' ⟨hdeclare, rfl⟩ before ⟨rfl, rfl⟩
    subst hset
    obtain ⟨hdepth, hclasses, hmembers, -⟩ := Scope.declareLocal_eq hdeclare
    refine ⟨rfl, rfl, rfl, hclasses, hmembers, hdepth, fun ids vars hids hcovered => ?_⟩
    obtain rfl : ids = [x] := by
      cases ids with
      | nil => cases hids
      | cons y rest => simp_all
    exact hcovered.declare hdeclare

/-- Entering the parameters one after the other enters all of them, in order. -/
theorem ParamDef.enterAll_ensures : (params : List ParamDef) →
    (each ParamDef.enter params).Ensures (EntersAll params) := by
  refine ensures_each ParamDef.enter_ensures ?_ ?_
  · refine fun b => ⟨rfl, rfl, rfl, rfl, rfl, rfl, fun ids vars hids hcovered => ?_⟩
    obtain rfl := List.map_eq_nil_iff.1 hids.symm
    rwa [List.append_nil, Scope.extend_eq]
  · intro param params before param' mid params' after hfirst hrest
    refine ⟨?_, hrest.table.trans hfirst.table, hrest.builtins.trans hfirst.builtins,
      hrest.classes.trans hfirst.classes, hrest.members.trans hfirst.members,
      hrest.depth.trans hfirst.depth, fun ids vars hids hcovered => ?_⟩
    · rw [hrest.same]
      simpa using hfirst.same
    · cases ids with
      | nil => cases hids
      | cons x ids =>
        obtain ⟨hx, hids⟩ := List.cons.inj hids
        have hmid := hfirst.covered [x] vars (by simp [hx]) hcovered
        have hafter := hrest.covered ids _ hids hmid
        rw [hfirst.depth, Scope.extend_self, List.append_assoc] at hafter
        refine hafter.congr fun d _ => ?_
        unfold Scope.extend
        split <;> rfl

/-- The analysis of bodies adds these local variables in order, and nothing else. -/
structure AddsBodies (strict : Bool) (before after : Bindings) (declared : List SymbolId) :
    Prop where
  table : before.table.AddsLocals strict after.table
  builtins : after.builtins = before.builtins
  classes : after.scope.classes = before.scope.classes
  declared : SymbolId.Spans declared before.table.size after.table.size

namespace AddsBodies

variable {strict : Bool} {before mid after : Bindings} {declared declared' : List SymbolId}

theorem refl (strict : Bool) (b : Bindings) : AddsBodies strict b b [] :=
  ⟨.refl rfl strict _, rfl, rfl, .nil _ _⟩

theorem trans (h : AddsBodies strict before mid declared)
    (h' : AddsBodies strict mid after declared') :
    AddsBodies strict before after (declared ++ declared') :=
  ⟨h.table.trans h'.table, h'.builtins.trans h.builtins, h'.classes.trans h.classes,
    h.declared.append h'.declared h.table.size h'.table.size⟩

theorem wellFormed (h : AddsBodies strict before after declared)
    (hwf : before.WellFormed strict) : after.WellFormed strict :=
  hwf.extend h.table.extends (hwf.table.addsVariables h.table) h.builtins h.classes

end AddsBodies

/-- The member names in force are those of members of the class. -/
def Bindings.Inside (b : Bindings) (cls : SymbolId) : Prop :=
  ∀ name x, b.scope.members.get? name = some x → b.table.signature.MemberOf cls x

theorem AddsBodies.inside {strict : Bool} {before after : Bindings} {declared : List SymbolId}
    (h : AddsBodies strict before after declared) {cls : SymbolId} (hinside : before.Inside cls)
    (hmembers : after.scope.members = before.scope.members) : after.Inside cls := by
  intro name x hget
  rw [hmembers] at hget
  exact h.table.memberOf (hinside name x hget)

theorem Typing.methodEnd_eq {method : MethodDef} {returnTy : Ty}
    (h : methodEnd method returnTy = []) (hvoid : returnTy.isVoid = false) :
    Stmt.allReturn method.body = true := by
  cases hreturns : Stmt.allReturn method.body with
  | true => rfl
  | false => simp [methodEnd, hvoid, hreturns] at h

section Bodies

variable {strict plain : Bool}

/-- Where the body of a method begins, the parameters are in force. -/
theorem ParamDef.EntersAll.sound {params params' : List ParamDef} {before after : Bindings}
    (h : EntersAll params { before with scope := before.scope.enterMethod } params' after)
    (hwf : before.WellFormed strict) {Γ : Context} (hinside : before.Inside Γ.cls)
    (hids : params.map (·.binding) = Γ.params.map some)
    (hparams : ∀ p ∈ Γ.params, before.table.kind? p = some .param)
    (hwritten : Γ.returnTy.isWritten = true) :
    after.Sound Γ (Scope.extend (fun _ => []) 0 Γ.params) := by
  have hdepth : after.scope.depth = 0 := h.depth
  have htable : after.table = before.table := h.table
  have hcoherent := hwf.coherent
  rw [← htable, ← (h.builtins : after.builtins = before.builtins)] at hcoherent
  refine ⟨hcoherent, hwritten, ?_, ?_, ?_, ?_⟩
  · intro name x hget
    rw [h.members] at hget
    rw [htable]
    exact hinside name x hget
  · intro name x hget
    rw [h.classes] at hget
    rw [htable]
    exact hwf.classes name x hget
  · exact h.covered Γ.params (fun _ => []) hids (Scope.covered_enterMethod _)
  · rw [hdepth, Scope.extend_self, htable]
    exact fun x hmem => .inr (hparams x hmem)

/-- The body of a method about which nothing is reported is well typed. -/
theorem MethodDef.analyze_ensures (strict plain : Bool) (cls : SymbolId) (method : MethodDef) :
    (method.analyze cls).Ensures fun before method' after => before.WellFormed strict →
      before.Inside cls → (∃ m info, method.DeclaredAs strict plain before.table cls m info) →
        AddsBodies strict before after (Stmt.allDeclared method'.body) ∧
          after.scope.members = before.scope.members ∧ method'.binding = method.binding ∧
            (plain = true → Stmt.allPlainUpdates method'.body = true) ∧
              ∃ m info, ∀ sig, after.table.Within sig → method'.WellTyped sig m info := by
  unfold analyze
  cases hbound : method.binding with
  | none =>
    refine ensures_pure ?_
    rintro before - - ⟨m, info, hdeclared⟩
    rw [hdeclared.bound] at hbound
    cases hbound
  | some m =>
    refine ensures_onScope.bind fun _ => ?_
    refine ((ParamDef.enterAll_ensures method.params).within _).bind fun params => ?_
    refine ensures_get.bind fun bindings => ?_
    refine ((Stmt.analyzeAll_ensures strict _ method.body).within _).bind fun body => ?_
    refine ensures_report.bind fun _ => ensures_pure ?_
    rintro after mid ⟨hend, rfl⟩ mid' hbody mid'' ⟨rfl, rfl⟩ start hparams before rfl hwf hinside
      ⟨m', info, hdeclared⟩
    obtain rfl := Option.some.inj (hbound.symm.trans hdeclared.bound)
    obtain ⟨hplain, hbody⟩ := hbody hdeclared.avoidsVoid
    have htable : mid'.table = before.table := hparams.table
    have hdepth : mid'.scope.depth = 0 := hparams.depth
    rw [htable] at hend hbody
    have hadds : AddsBodies strict before after (Stmt.allDeclared body) := by
      refine ⟨?_, hbody.builtins.trans hparams.builtins, hbody.classes.trans hparams.classes, ?_⟩
      · rw [← htable]
        exact hbody.table
      · rw [← htable]
        exact hbody.declared
    refine ⟨hadds, hbody.members.trans hparams.members, rfl,
      fun h => hplain.trans (hdeclared.plainUpdates h), m, info, fun sig hwithin => ?_⟩
    have hparam : ∀ p ∈ info.params, before.table.kind? p = some .param :=
      fun p hmem => hwf.coherent.params m info p hdeclared.kind hmem
    have hkind := hadds.table.extends.kept m _ hdeclared.kind nofun
    have hty : sig.typeOf m = before.table.typeOf m :=
      (hwithin m _ hkind).2.trans (hadds.table.typeOf_eq hdeclared.kind)
    have hsound : mid'.Sound
        ⟨sig, cls, method.modifiers.isStatic, before.table.typeOf m, info.params⟩
        (Scope.extend (fun _ => []) 0 info.params) :=
      hparams.sound hwf hinside hdeclared.params hparam (hwf.table.written m _ hdeclared.kind)
    obtain ⟨locals, htyped, -⟩ := hbody.typed _ _ [] rfl hsound hwithin
      (by rw [hdepth, Scope.extend_self]; simp)
    refine ⟨rfl, (hwithin m _ hkind).1, hdeclared.modifiers, ?_, ?_, ?_, ?_⟩
    · have hlength := congrArg List.length hdeclared.params
      change info.params.length = params.length
      rw [hparams.same]
      simpa using hlength.symm
    · rw [hty]
      exact hdeclared.isVoid
    · intro hvoid
      refine Typing.methodEnd_eq hend ?_
      rw [hdeclared.isVoid]
      exact hvoid
    · rw [hty, hdeclared.owner, hdeclared.modifiers]
      exact htyped

/-- Analysing the methods of a class only adds the local variables of their bodies, each body is
    well typed, and the members in scope are those from before. -/
theorem MethodDef.analyzeAll_ensures (strict plain : Bool) (cls : SymbolId) :
    (methods : List MethodDef) →
    (each (MethodDef.analyze cls) methods).Ensures fun before methods' after =>
      before.WellFormed strict → before.Inside cls →
        (∀ method ∈ methods, ∃ m info, method.DeclaredAs strict plain before.table cls m info) →
          AddsBodies strict before after (methods'.flatMap fun method =>
            Stmt.allDeclared method.body) ∧ after.scope.members = before.scope.members ∧
              methods'.map (·.binding) = methods.map (·.binding) ∧
                ∀ method ∈ methods', (plain = true → Stmt.allPlainUpdates method.body = true) ∧
                  ∃ m info, ∀ sig, after.table.Within sig → method.WellTyped sig m info := by
  refine ensures_each (MethodDef.analyze_ensures strict plain cls) ?_ ?_
  · exact fun b _ _ _ => ⟨.refl strict b, rfl, rfl, by simp⟩
  · intro method methods before method' mid methods' after hfirst hrest hwf hinside hdeclared
    obtain ⟨hadds, hmembers, hbound, hplain, m, info, htyped⟩ :=
      hfirst hwf hinside (hdeclared method List.mem_cons_self)
    obtain ⟨hadds', hmembers', hbounds, htypeds⟩ :=
      hrest (hadds.wellFormed hwf) (hadds.inside hinside hmembers) fun other hmem => by
        obtain ⟨m, info, hother⟩ := hdeclared other (List.mem_cons_of_mem _ hmem)
        exact ⟨m, info, hother.extend hadds.table.extends⟩
    refine ⟨hadds.trans hadds', hmembers'.trans hmembers, by simp [hbound, hbounds],
      fun other hmem => ?_⟩
    obtain rfl | hmem := List.mem_cons.1 hmem
    · exact ⟨hplain, m, info, fun sig hwithin => htyped sig (hadds'.table.within hwithin)⟩
    · exact htypeds other hmem

/-- All local variables of a class, in the order of their declaration. -/
def ClassDef.declaredLocals (cls : ClassDef) : List SymbolId :=
  cls.methods.flatMap fun method => Stmt.allDeclared method.body

/-- Analysing the bodies of one class only adds their local variables, keeps its methods and makes
    each of them well typed in every later table. -/
theorem ClassDef.analyze_ensures (strict plain : Bool) (cls : ClassDef) :
    cls.analyze.Ensures fun before cls' after => before.WellFormed strict →
      cls.DeclaredIn strict plain before.table →
        AddsBodies strict before after cls'.declaredLocals ∧ cls'.methodIds = cls.methodIds ∧
          ∀ method ∈ cls'.methods, (plain = true → Stmt.allPlainUpdates method.body = true) ∧
            ∃ m info, ∀ sig, after.table.Within sig → method.WellTyped sig m info := by
  unfold analyze
  cases hbound : cls.binding with
  | none =>
    refine ensures_pure ?_
    rintro before - ⟨x, info, hbound', -⟩
    rw [hbound] at hbound'
    cases hbound'
  | some x =>
    refine ensures_get.bind fun bindings => ?_
    refine ensures_onScope.bind fun _ => ?_
    refine ((MethodDef.analyzeAll_ensures strict plain x cls.methods).within _).bind
      fun methods => ensures_pure ?_
    rintro after mid hmethods mid' rfl before ⟨rfl, rfl⟩ hwf ⟨x', info, hbound', hkind, hdeclared⟩
    obtain rfl := Option.some.inj (hbound.symm.trans hbound')
    have hinfo : (mid'.table.classInfo? x).getD {} = info := by
      simp [SymbolTable.classInfo?_eq_some_iff.2 hkind]
    rw [hinfo] at hmethods
    obtain ⟨hadds, -, hbounds, htyped⟩ := hmethods (hwf.extend (.refl _) hwf.table rfl rfl)
      (fun name y hget => hwf.table.members x info name y hkind (.inl hget)) hdeclared
    refine ⟨⟨hadds.table, hadds.builtins, hadds.classes, hadds.declared⟩, ?_, htyped⟩
    have hids := congrArg (List.filterMap id) hbounds
    simpa [methodIds, List.filterMap_map, Function.comp_def] using hids

/-- Analysing the bodies of all classes only adds local variables, keeps every method and makes each
    of them well typed in every later table. -/
theorem ClassDef.analyzeEach_ensures (strict plain : Bool) : (classes : List ClassDef) →
    (each ClassDef.analyze classes).Ensures fun before classes' after =>
      before.WellFormed strict → (∀ cls ∈ classes, cls.DeclaredIn strict plain before.table) →
        AddsBodies strict before after (classes'.flatMap declaredLocals) ∧
          classes'.flatMap methodIds = classes.flatMap methodIds ∧
            ∀ cls ∈ classes', ∀ method ∈ cls.methods,
              (plain = true → Stmt.allPlainUpdates method.body = true) ∧
                ∃ m info, ∀ sig, after.table.Within sig → method.WellTyped sig m info := by
  refine ensures_each (ClassDef.analyze_ensures strict plain) ?_ ?_
  · exact fun b _ _ => ⟨.refl strict b, rfl, by simp⟩
  · intro cls classes before cls' mid classes' after hfirst hrest hwf hdeclared
    obtain ⟨hadds, hids, htyped⟩ := hfirst hwf (hdeclared cls List.mem_cons_self)
    obtain ⟨hadds', hids', htypeds⟩ := hrest (hadds.wellFormed hwf) fun other hmem =>
      (hdeclared other (List.mem_cons_of_mem _ hmem)).extend hadds.table.extends
    refine ⟨hadds.trans hadds', by simp [hids, hids'], fun other hmem => ?_⟩
    obtain rfl | hmem := List.mem_cons.1 hmem
    · intro method hmethod
      obtain ⟨hplain, m, info, htyped⟩ := htyped method hmethod
      exact ⟨hplain, m, info, fun sig hwithin => htyped sig (hadds'.table.within hwithin)⟩
    · exact htypeds other hmem

end Bodies

end SmallJava
