import SmallJava.Compile
import SmallJava.Proofs.Acceptance.Declarations
import SmallJava.Proofs.Acceptance.Methods
import SmallJava.Proofs.Declaration.Accepted

namespace SmallJava

open Walk

/-- The method as it is before its declaration. -/
def MethodDef.unbind (method : MethodDef) : MethodDef :=
  { method with params := method.params.map ParamDef.erase, binding := none }

/-- The class as it is before its declaration. -/
def ClassDef.unbind (cls : ClassDef) : ClassDef :=
  { cls with
    fields := cls.fields.map FieldDef.erase
    methods := cls.methods.map MethodDef.unbind
    binding := none }

section Unbind

/-- Declaring a method records symbols and changes nothing else. -/
theorem MethodDef.declare_keeps_unbind (c : SymbolId) (className : String) (method : MethodDef) :
    (method.declare c className).Keeps MethodDef.unbind method := by
  refine (declareTyped_keeps MethodDef.unbind _ _ _).bind fun symbol _ => ?_
  refine Always.bindWithin (keeps_each ParamDef.declare_keeps method.params) ?_ fun params hparams => ?_
  · intro params hparams
    simp [unbind, hparams]
  refine Always.bind (Q := fun _ => True) (yields_modify fun _ _ => trivial) fun _ _ => always_pure ?_
  simp [unbind, hparams]

theorem ClassDef.declare_keeps_unbind (cls : ClassDef) : cls.declare.Keeps ClassDef.unbind cls := by
  refine always_get.bind fun b _ => ?_
  dsimp only
  split
  next => exact always_lift (Check.yields_abort rfl)
  next =>
    refine always_set.bind fun _ _ => ?_
    exact always_pure rfl

/-- Declaring the members of a class records symbols and changes nothing else. -/
theorem ClassDef.declareMembers_keeps_unbind (cls : ClassDef) :
    cls.declareMembers.Keeps ClassDef.unbind cls := by
  unfold declareMembers
  cases cls.binding with
  | none => exact always_pure rfl
  | some c =>
    have hfields := keeps_each (FieldDef.declare_keeps c cls.name) cls.fields
    have hmethods := keeps_each (MethodDef.declare_keeps_unbind c cls.name) cls.methods
    refine Always.bindWithin hfields ?_ fun fields hfields => ?_
    · intro fields hfields
      simp [unbind, hfields]
    refine Always.bindWithin hmethods ?_ fun methods hmethods => always_pure ?_
    · intro methods hmethods
      simp [unbind, hfields, hmethods]
    · simp [unbind, hfields, hmethods]

end Unbind

namespace Source

variable {classes : List ClassSig} {sig : ClassSig} {cls cls' : ClassDef} {method : MethodDef}

/-- The rules do not look at the symbols of declarations. -/
theorem validMethod_unbind_iff :
    ValidMethod classes sig method.unbind ↔ ValidMethod classes sig method := by
  have hnames : method.unbind.params.map (·.name) = method.params.map (·.name) := by
    simp [MethodDef.unbind, ParamDef.erase, Function.comp_def]
  have htypes : ∀ types : List Ty,
      List.Forall₂ (fun param ty => Denotes classes param.type ty) method.unbind.params types ↔
        List.Forall₂ (fun param ty => Denotes classes param.type ty) method.params types :=
    fun types => List.forall₂_map_left_iff
  constructor
  · rintro ⟨hnodup, hbody, hreturns⟩
    simp only [hnames, htypes] at hnodup hbody
    exact ⟨hnodup, hbody, hreturns⟩
  · rintro ⟨hnodup, hbody, hreturns⟩
    simp only [← hnames, ← htypes] at hnodup hbody
    exact ⟨hnodup, hbody, hreturns⟩

theorem sig_unbind (cls : ClassDef) : cls.unbind.sig = cls.sig := by
  simp [ClassDef.sig, ClassDef.unbind, MethodDef.unbind, FieldDef.sig, FieldDef.erase, MethodDef.sig,
    ParamDef.erase, Function.comp_def]

/-- Whether a class is valid does not depend on recorded symbols. -/
theorem validClass_unbind_iff : ValidClass classes cls.unbind ↔ ValidClass classes cls := by
  have hfields : (∀ field ∈ cls.unbind.fields, ∃ ty, Denotes classes field.type ty) ↔
      ∀ field ∈ cls.fields, ∃ ty, Denotes classes field.type ty := by
    simp [ClassDef.unbind, FieldDef.erase]
  have hmethods : (∀ method ∈ cls.unbind.methods, ValidMethod classes cls.sig method) ↔
      ∀ method ∈ cls.methods, ValidMethod classes cls.sig method := by
    simp [ClassDef.unbind, validMethod_unbind_iff]
  constructor
  · rintro ⟨hmembers, hfields', hmethods'⟩
    rw [sig_unbind] at hmembers hmethods'
    exact ⟨hmembers, hfields.1 hfields', hmethods.1 hmethods'⟩
  · rintro ⟨hmembers, hfields', hmethods'⟩
    rw [← sig_unbind] at hmembers
    exact ⟨hmembers, hfields.2 hfields', by rw [sig_unbind]; exact hmethods.2 hmethods'⟩

/-- Classes follow the rules if they differ in symbols only from classes that do. -/
theorem validClass_of_unbind {cs cs' : List ClassDef}
    (hsame : cs'.map ClassDef.unbind = cs.map ClassDef.unbind)
    (h : ∀ cls ∈ cs, ValidClass classes cls) : ∀ cls ∈ cs', ValidClass classes cls := by
  intro cls hmem
  have hin : cls.unbind ∈ cs.map ClassDef.unbind := hsame ▸ List.mem_map_of_mem hmem
  obtain ⟨other, hother, heq⟩ := List.mem_map.1 hin
  rw [← validClass_unbind_iff, ← heq, validClass_unbind_iff]
  exact h other hother

theorem sigs_of_unbind {cs cs' : List ClassDef}
    (hsame : cs'.map ClassDef.unbind = cs.map ClassDef.unbind) :
    cs'.map ClassDef.sig = cs.map ClassDef.sig := by
  have h := congrArg (List.map ClassDef.sig) hsame
  simpa only [List.map_map, Function.comp_def, sig_unbind] using h

/-- What a class that follows the rules declares is in order. -/
theorem ValidClass.declarable (h : ValidClass classes cls) : DeclarableClass classes cls where
  members := h.members
  fields := h.fields
  methods := by
    intro method hmem
    obtain ⟨returnTy, types, -, hreturn, hparams, -⟩ := (h.methods method hmem).body
    refine ⟨⟨returnTy, hreturn⟩, fun param hparam => ?_⟩
    obtain ⟨τ, -, hτ⟩ := exists_of_mem_results hparams.flip hparam
    exact ⟨τ, hτ⟩

end Source

/-- Described declarations with the built-in symbols are all that bodies can refer to. -/
theorem Bindings.Describes.knows {b : Bindings} {declared : List ClassDef}
    (h : b.Describes (Builtins.classDefs ++ declared)) {strict : Bool} (hwf : b.WellFormed strict) :
    b.Knows (Builtins.classDefs ++ declared) where
  describes := h
  string := by
    rw [h.builtins]
    exact ⟨_, List.mem_append_left _ (.tail _ (.tail _ (.head _))), rfl, rfl⟩
  arrayLength := hwf.arrayLength
  arrayLengthTy := hwf.arrayLengthTy

/-- The built-in classes are those that the rules know. -/
theorem Builtins.sigs_classDefs : classDefs.map ClassDef.sig = Source.builtinSigs := rfl

namespace ClassDef

variable {classes declared : List ClassDef} {b : Bindings}

/-- A package passes if all three rounds over its classes do, each on the result of the one before.
    -/
theorem passes_analyzeAll : (analyzeAll classes).Passes .initial declared b ↔
    ∃ named b₁, (each declare classes).Passes .initial named b₁ ∧
      ∃ members b₂, (each declareMembers named).Passes b₁ members b₂ ∧
        (each analyze members).Passes b₂ declared b := by
  have hnames : (each declare classes).Accepts _ := accepts_passes (declareAll_ensures false false classes)
  have hmembers := fun named => accepts_passes (declareAllMembers_ensures false false named)
  have hbodies := fun members => accepts_passes (analyzeEach_ensures false false members)
  exact (hnames.bind fun named => (hmembers named).bind hbodies).iff _ _ _

/-- Once all members are declared, everything is known that bodies can refer to. -/
theorem knows_of_passes {named : List ClassDef} {b₁ : Bindings}
    (hnamed : (each declare classes).Passes .initial named b₁)
    (hdeclared : (each declareMembers named).Passes b₁ declared b) :
    b.Knows (Builtins.classDefs ++ declared) := by
  have hnames : (each declare classes).Accepts _ := accepts_passes (declareAll_ensures false false classes)
  have hmembers := fun named => accepts_passes (declareAllMembers_ensures false false named)
  have hdisciplined : ∀ cls ∈ classes, cls.Disciplined false false :=
    fun _ _ => ⟨nofun, fun _ _ => ⟨nofun, nofun⟩⟩
  obtain ⟨hwf, -, hnamed'⟩ := ((declareAll_ensures false false classes .initial).ok hnamed).2 rfl
    (Bindings.initial_wellFormed false).1 hdisciplined
  have hwf' := (((declareAllMembers_ensures false false named b₁).ok hdeclared).2 rfl hwf hnamed').1
  have hpasses := ((hnames.bind hmembers).iff .initial declared b).2 ⟨named, b₁, hnamed, hdeclared⟩
  exact ((declareAll_yields classes _ rfl).ok hpasses).knows hwf'

/-- Declaration changes only symbols. -/
theorem unbind_of_passes {named : List ClassDef} {b₁ : Bindings}
    (hnamed : (each declare classes).Passes .initial named b₁)
    (hdeclared : (each declareMembers named).Passes b₁ declared b) :
    declared.map unbind = classes.map unbind :=
  ((keeps_each declareMembers_keeps_unbind named b₁ trivial).ok hdeclared).trans
    ((keeps_each declare_keeps_unbind classes .initial trivial).ok hnamed)

/-- Declared members follow the rules for declarations. -/
theorem validClass_of_knows {decls : List ClassDef} {cls : ClassDef} (h : b.Knows decls) (hmem : cls ∈ decls)
    (hmethods : ∀ method ∈ cls.methods, Source.ValidMethod (decls.map sig) cls.sig method) :
    Source.ValidClass (decls.map sig) cls where
  members := by
    obtain ⟨c, hdeclared⟩ := h.describes.declared cls hmem
    obtain ⟨info, -, hhas⟩ := hdeclared.info
    rw [memberNames_sig]
    simpa [members, FieldDef.member, MethodDef.member, Function.comp_def] using hhas.nodup
  fields := by
    intro field hfield
    obtain ⟨c, hdeclared⟩ := h.describes.declared cls hmem
    obtain ⟨x, hfield⟩ := hdeclared.fields field hfield
    obtain ⟨τ, -, hdenotes⟩ := (h.resolve_corresponds _).sound _ hfield.type
    exact ⟨τ, hdenotes⟩
  methods := hmethods

/-- Classes are analysed without a report exactly if they follow the rules. -/
theorem analyzeAll_iff : (∃ analyzed b, (analyzeAll classes).Passes .initial analyzed b) ↔
    ((Source.builtinSigs ++ classes.map sig).map (·.name)).Nodup ∧
      ∀ cls ∈ classes, Source.ValidClass (Source.builtinSigs ++ classes.map sig) cls := by
  have hsigs : ∀ {declared : List ClassDef}, declared.map unbind = classes.map unbind →
      (Builtins.classDefs ++ declared).map sig = Source.builtinSigs ++ classes.map sig := by
    intro declared hsame
    rw [List.map_append, Builtins.sigs_classDefs, Source.sigs_of_unbind hsame]
  have hnames : ∀ {declared : List ClassDef}, declared.map unbind = classes.map unbind →
      (Builtins.classDefs ++ declared).map (·.name) =
        (Source.builtinSigs ++ classes.map sig).map (·.name) := by
    intro declared hsame
    rw [← hsigs hsame, List.map_map]
    rfl
  have hbodies := fun {declared : List ClassDef} {b : Bindings}
      (h : b.Knows (Builtins.classDefs ++ declared)) =>
    (decides_each analyze_appends declared fun cls hmem =>
      analyze_decides (List.mem_append_right _ hmem)).iff b h
  constructor
  · rintro ⟨analyzed, b, hpasses⟩
    obtain ⟨named, b₁, hnamed, declared, b₂, hdeclared, hanalyzed⟩ := passes_analyzeAll.1 hpasses
    have hknows := knows_of_passes hnamed hdeclared
    have hsame := unbind_of_passes hnamed hdeclared
    refine ⟨?_, Source.validClass_of_unbind hsame.symm fun cls hmem => ?_⟩
    · rw [← hnames hsame]
      exact hknows.describes.nodup
    · rw [← hsigs hsame]
      exact validClass_of_knows hknows (List.mem_append_right _ hmem)
        ((hbodies hknows).1 ⟨analyzed, b, hanalyzed⟩ cls hmem)
  · rintro ⟨hnodup, hvalid⟩
    obtain ⟨named, b₁, hnamed⟩ := exists_declareAll (by rwa [hnames rfl])
    have hsame : named.map unbind = classes.map unbind :=
      (keeps_each declare_keeps_unbind classes .initial trivial).ok hnamed
    obtain ⟨declared, b₂, hdeclared⟩ := exists_declareAllMembers
      ((declareNames_yields classes _ rfl).ok hnamed) (hnames hsame)
      fun cls hmem => (Source.validClass_of_unbind hsame hvalid cls hmem).declarable
    have hknows := knows_of_passes hnamed hdeclared
    have hsame := unbind_of_passes hnamed hdeclared
    obtain ⟨analyzed, b, hanalyzed⟩ := (hbodies hknows).2 fun cls hmem => by
      rw [hsigs hsame]
      exact (Source.validClass_of_unbind hsame hvalid cls hmem).methods
    exact ⟨analyzed, b, passes_analyzeAll.2
      ⟨named, b₁, hnamed, declared, b₂, hdeclared, hanalyzed⟩⟩

end ClassDef

/-- Whether a method can be the entry point is told from its header, which analysis leaves alone. -/
theorem MethodDef.hasEntrySignature_erase (method : MethodDef) :
    method.erase.hasEntrySignature = method.hasEntrySignature := by
  unfold hasEntrySignature erase
  cases method.params with
  | nil => rfl
  | cons param rest =>
    cases rest <;> rfl

namespace Package

/-- Analysis finds an entry method exactly if one is written. -/
theorem entry_isSome_iff {package : Package} {classes : List ClassDef} {b : Bindings}
    (hpasses : (ClassDef.analyzeAll package.classes).Passes .initial classes b) :
    ((entryMethod? { package with classes }).bind (·.binding)).isSome = true ↔
      ∃ cls ∈ package.classes, ∃ method ∈ cls.methods, method.hasEntrySignature = true := by
  have herase : classes.map ClassDef.erase = package.classes.map ClassDef.erase :=
    (ClassDef.analyzeAll_keeps package.classes .initial trivial).ok hpasses
  have hsame : (classes.flatMap (·.methods)).map MethodDef.erase =
      (package.classes.flatMap (·.methods)).map MethodDef.erase := by
    have hmethods := congrArg (List.flatMap (·.methods)) herase
    simpa [List.flatMap_map, List.map_flatMap, ClassDef.erase] using hmethods
  have hbound : ∀ method ∈ classes.flatMap (·.methods), ∃ m, method.binding = some m := by
    obtain ⟨-, -, -, htyped⟩ := ((ClassDef.analyzeAll_ensures false false package.classes _).ok hpasses).2
      rfl (Bindings.initial_wellFormed false).1 (disciplined (by simp) (by simp))
    intro method hmem
    obtain ⟨cls, hcls, hmethod⟩ := List.mem_flatMap.1 hmem
    obtain ⟨-, m, info, hmethod⟩ := htyped cls hcls method hmethod
    exact ⟨m, hmethod.bound⟩
  have hentry : ((entryMethod? { package with classes }).bind (·.binding)).isSome = true ↔
      ∃ method ∈ classes.flatMap (·.methods), method.hasEntrySignature = true := by
    rw [← List.find?_isSome]
    unfold entryMethod?
    cases hfind : (classes.flatMap (·.methods)).find? (·.hasEntrySignature) with
    | none => simp
    | some method =>
      obtain ⟨m, hm⟩ := hbound method (List.mem_of_find?_eq_some hfind)
      simp [hm]
  have hany : ∀ classes : List ClassDef, (∃ cls ∈ classes, ∃ method ∈ cls.methods,
      method.hasEntrySignature = true) ↔ ∃ method ∈ (classes.flatMap (·.methods)).map MethodDef.erase,
        method.hasEntrySignature = true := by
    intro classes
    simp [MethodDef.hasEntrySignature_erase]
    tauto
  rw [hentry, hany, ← hsame]
  simp [MethodDef.hasEntrySignature_erase]

/-- A program is accepted exactly if nothing is reported about its classes and it has an entry. -/
theorem check_eq_ok_iff {package : Package} : (∃ checked, (package.check .any).1 = .ok checked) ↔
    (∃ classes b, (ClassDef.analyzeAll package.classes).Passes .initial classes b) ∧
      ∃ cls ∈ package.classes, ∃ method ∈ cls.methods, method.hasEntrySignature = true := by
  unfold check analyze
  cases hrun : (ClassDef.analyzeAll package.classes).run .initial |>.run [] with
  | error classes log =>
    refine iff_of_false nofun ?_
    rintro ⟨⟨classes', b, hpasses⟩, -⟩
    cases hrun.symm.trans hpasses
  | ok result log =>
    obtain ⟨classes, b⟩ := result
    dsimp only
    by_cases hlog : log = []
    · subst hlog
      have hpasses : (ClassDef.analyzeAll package.classes).Passes .initial classes b := hrun
      rw [← entry_isSome_iff hpasses]
      cases hentry : ((entryMethod? { package with classes }).bind (·.binding)).isSome with
      | true => exact iff_of_true ⟨_, rfl⟩ ⟨⟨classes, b, hpasses⟩, rfl⟩
      | false => exact iff_of_false nofun nofun
    · refine iff_of_false ?_ ?_
      · rintro ⟨checked, hcheck⟩
        have hreported : ∀ entry : Bool,
            (if entry = true then log else log.report (.missingEntryPoint package.span)) ≠ [] := by
          intro entry
          cases entry <;> simp [hlog, Diagnostic.Log.report]
        simp [Policy.any, hreported] at hcheck
      · rintro ⟨⟨classes', b', hpasses⟩, -⟩
        obtain ⟨-, rfl⟩ := EStateM.Result.ok.inj (hrun.symm.trans hpasses)
        exact hlog rfl

/-- Checking a program accepts it exactly if it follows the rules. -/
theorem check_iff_valid (package : Package) :
    (∃ checked, (package.check .any).1 = .ok checked) ↔ Source.ValidPackage package := by
  rw [check_eq_ok_iff, ClassDef.analyzeAll_iff]
  exact ⟨fun ⟨⟨hnames, hclasses⟩, hentry⟩ => ⟨hnames, hclasses, hentry⟩,
    fun ⟨hnames, hclasses, hentry⟩ => ⟨⟨hnames, hclasses⟩, hentry⟩⟩

end Package

end SmallJava
