import SmallJava.Compile
import SmallJava.Proofs.Declaration.Analyze
import SmallJava.Proofs.Storage
import SmallJava.Proofs.Typing.Values

namespace SmallJava

/-- What a dictionary built from a list of entries answers is one of those entries. -/
theorem Dict.mem_of_get?_ofList {κ ν : Type} [DecidableEq κ] {entries : List (κ × ν)} {key : κ}
    {value : ν} (hget : (ofList entries).get? key = some value) : (key, value) ∈ entries := by
  have hfold : ∀ (entries : List (κ × ν)) (dict : Dict κ ν),
      (entries.foldl (fun dict entry => dict.insert entry.1 entry.2) dict).get? key = some value →
        (key, value) ∈ entries ∨ dict.get? key = some value := by
    intro entries
    induction entries with
    | nil => exact fun dict hget => .inr hget
    | cons entry rest ih =>
      intro dict hget
      obtain hmem | hget := ih _ hget
      · exact .inl (List.mem_cons_of_mem _ hmem)
      · rw [get?_insert] at hget
        split at hget
        next heq =>
          obtain rfl := Option.some.inj hget
          rw [heq]
          exact .inl List.mem_cons_self
        next => exact .inr hget
  obtain hmem | hempty := hfold entries empty hget
  · exact hmem
  · cases hempty

namespace SymbolTable

/-- The analysis starts from well-formed bindings: the built-in classes, and nothing in scope. -/
theorem wellFormed_empty (strict : Bool) : WellFormed strict {} := by
  have hnone : ∀ x, kind? {} x = none := fun x => rfl
  have hlists : ∀ list belongs, Lists {} list belongs := by
    intro list belongs
    refine ⟨?_, ?_, ?_⟩
    · intro cls info x hcls
      cases (hnone cls).symm.trans hcls
    · intro cls info hcls
      cases (hnone cls).symm.trans hcls
    · intro x kind cls hkind
      cases (hnone x).symm.trans hkind
  refine ⟨?_, ?_, List.nodup_nil, ?_, hlists _ _, hlists _ _, ?_, ?_, ?_⟩
  · intro x symbol hget
    cases hget
  · intro x
    simp [hnone]
  · intro cls info name x hcls
    cases (hnone cls).symm.trans hcls
  · intro m info hmethod
    cases (hnone m).symm.trans hmethod
  · intro x kind hkind
    cases (hnone x).symm.trans hkind
  · intro _ x kind hkind
    cases (hnone x).symm.trans hkind

/-- The table with the built-in classes and the field `out`. -/
private def builtinClasses : SymbolTable :=
  ((((({} : SymbolTable).addClass "System" {}).addClass "_PrintStream" {}).addClass "String"
    {})).insertMember ⟨0⟩ "out" (.field ⟨0⟩ { isStatic := true }) (.object ⟨1⟩) {}

private theorem wellFormed_builtinClasses (strict : Bool) : builtinClasses.WellFormed strict :=
  (wellFormed_empty strict).addClass.addClass.addClass.insertMember rfl (.inl ⟨_, rfl⟩) rfl
    fun _ _ => rfl

private theorem kind?_builtinClasses_ne_method {x : SymbolId} {info : MethodInfo} :
    builtinClasses.kind? x ≠ some (.method info) := by
  intro hkind
  have hlt : x.index < 4 := lt_size_of_kind? hkind
  match x, hlt, hkind with
  | ⟨0⟩, _, hkind => cases hkind
  | ⟨1⟩, _, hkind => cases hkind
  | ⟨2⟩, _, hkind => cases hkind
  | ⟨3⟩, _, hkind => cases hkind

end SymbolTable

open SymbolTable

/-- The declarations that every program finds in place are well formed, and `println` is
    the only method among them. -/
theorem Bindings.initial_wellFormed (strict : Bool) : Bindings.initial.WellFormed strict ∧
    ∀ x info, Bindings.initial.table.kind? x = some (.method info) →
      x = Bindings.initial.builtins.println := by
  have hparam : (builtinClasses.insertMember ⟨1⟩ "println"
      (.method { owner := ⟨1⟩, modifiers := { isStatic := true } }) .void {}).AddsVariables .param
        strict (SymbolTable.add _ "n" .param .int {}) :=
    .add rfl _ "n" {} rfl fun _ => rfl
  obtain ⟨hwf, hadded⟩ := (wellFormed_builtinClasses strict).addMethod rfl rfl hparam
    (.singleton (Nat.le_refl _) (Nat.lt_succ_self _))
  have hlength : SymbolTable.AddsVariables .arrayLength strict _ Bindings.initial.table :=
    .add rfl _ "length" {} rfl fun _ => rfl
  have htable := hwf.addsVariables hlength
  refine ⟨⟨htable, ⟨⟨⟨1⟩, rfl⟩, rfl⟩, rfl, rfl, ?_⟩, ?_⟩
  · intro name x hget
    obtain ⟨cls, hcls, heq⟩ := List.mem_map.1 (Dict.mem_of_get?_ofList hget)
    obtain ⟨-, rfl⟩ := Prod.mk.inj heq
    exact (htable.classes cls).1 hcls
  · intro x info hkind
    obtain ⟨info, hkind⟩ | rfl := hadded.methods x info (hlength.kind?_method_iff.1 hkind)
    · exact absurd hkind kind?_builtinClasses_ne_method
    · rfl

theorem SymbolTable.within_signature (table : SymbolTable) : table.Within table.signature :=
  fun _ _ hkind => ⟨hkind, rfl⟩

/-- Identifiers that span a range also span every larger range. -/
theorem SymbolId.Spans.widen {ids : List SymbolId} {lo lo' hi hi' : Nat} (h : Spans ids lo hi)
    (hlo : lo' ≤ lo) (hhi : hi ≤ hi') : Spans ids lo' hi' where
  bounds := by
    intro x hmem
    have hbounds := h.bounds x hmem
    omega
  sorted := h.sorted

/-- All methods of a program, in the order of their code. -/
abbrev Package.methods (package : Package) : List MethodDef := package.classes.flatMap (·.methods)

/-- Following those of the rules on `void` and on updates of loops that are in force. -/
def Package.Disciplined (strict plain : Bool) (package : Package) : Prop :=
  ∀ cls ∈ package.classes, cls.Disciplined strict plain

/-- The conditions on the whole package, each taken only where it is asked for, are conditions on
    each of its classes. -/
theorem Package.disciplined {package : Package} {strict plain : Bool}
    (hplain : plain = true → package.plainUpdates = true)
    (hvoid : strict = true → package.avoidsVoid = true) :
    package.Disciplined strict plain := by
  intro cls hcls
  have hplain : plain = true →
      ∀ method ∈ cls.methods, Stmt.allPlainUpdates method.body = true := by
    intro h
    have hplain := hplain h
    unfold Package.plainUpdates at hplain
    exact List.all_eq_true.1 (List.all_eq_true.1 hplain cls hcls)
  have hvoid : strict = true → (∀ field ∈ cls.fields, field.type.avoidsVoid = true) ∧
      ∀ method ∈ cls.methods, method.avoidsVoid = true := by
    intro hstrict
    have hvoid := hvoid hstrict
    unfold Package.avoidsVoid at hvoid
    obtain ⟨hfields, hmethods⟩ := Bool.and_eq_true_iff.1 (List.all_eq_true.1 hvoid cls hcls)
    exact ⟨List.all_eq_true.1 hfields, List.all_eq_true.1 hmethods⟩
  exact ⟨fun hstrict => (hvoid hstrict).1, fun method hmem =>
    ⟨fun h => hplain h method hmem, fun hstrict => (hvoid hstrict).2 method hmem⟩⟩

/-- A program whose declarations are well formed and whose methods are well typed. Methods
    and local variables are numbered in the order of their declaration. -/
structure Package.WellTyped (strict plain : Bool) (package : Package) (analysis : Analysis) : Prop where
  table : analysis.table.WellFormed strict
  println : analysis.table.HasPrintln analysis.builtins
  methods : ∀ method ∈ package.methods, ∃ m info,
    method.WellTyped analysis.table.signature m info
  plainUpdates : plain = true →
    ∀ method ∈ package.methods, Stmt.allPlainUpdates method.body = true
  ids : (package.methods.filterMap (·.binding)).Pairwise fun m m' => m.index < m'.index
  own : ∀ m ∈ package.methods.filterMap (·.binding), m ≠ analysis.builtins.println
  locals : (package.methods.flatMap fun method => Stmt.allDeclared method.body).Nodup
  complete : ∀ m info, analysis.table.kind? m = some (.method info) →
    m = analysis.builtins.println ∨ m ∈ package.methods.filterMap (·.binding)
  entry : ∃ method ∈ package.methods, method.hasEntrySignature = true ∧
    ∃ m, method.binding = some m ∧ analysis.entry = some m

/-- The two passes over the classes, declaring them and analysing their bodies, keep the bindings
    well formed and give every method a well-typed body. -/
theorem ClassDef.analyzeAll_ensures (strict plain : Bool) (classes : List ClassDef) :
    (analyzeAll classes).Ensures fun before classes' after => before.WellFormed strict →
      (∀ cls ∈ classes, cls.Disciplined strict plain) →
        after.WellFormed strict ∧ Declares before after (classes'.flatMap methodIds) ∧
          (classes'.flatMap declaredLocals).Nodup ∧
            ∀ cls ∈ classes', ∀ method ∈ cls.methods,
              (plain = true → Stmt.allPlainUpdates method.body = true) ∧
                ∃ m info, method.WellTyped after.table.signature m info := by
  refine (ClassDef.declareAll_ensures strict plain classes).bind fun named => ?_
  refine (ClassDef.declareAllMembers_ensures strict plain named).bind fun declared => ?_
  refine (ClassDef.analyzeEach_ensures strict plain declared).weaken ?_
  intro mid' classes' after hbodies mid hmembers before hnames hwf hclasses
  obtain ⟨hmid, hdeclares, hnamed⟩ := hnames hwf hclasses
  obtain ⟨hmid', hdeclares', hdeclared⟩ := hmembers hmid hnamed
  obtain ⟨hadds, hids, htyped⟩ := hbodies hmid' hdeclared
  obtain ⟨hextends, hbuiltins, hspans, hmethods⟩ := hdeclares.trans hdeclares'
  rw [List.nil_append, ← hids] at hspans hmethods
  refine ⟨hadds.wellFormed hmid', ⟨hextends.trans hadds.table.extends,
    hadds.builtins.trans hbuiltins, hspans.widen (Nat.le_refl _) hadds.table.size, ?_⟩,
    hadds.declared.nodup, fun cls hcls method hmethod => ?_⟩
  · exact fun x info hkind => hmethods x info (hadds.table.kind?_method_iff.1 hkind)
  · obtain ⟨hplain, m, info, htyped⟩ := htyped cls hcls method hmethod
    exact ⟨hplain, m, info, htyped _ after.table.within_signature⟩

namespace Package

/-- In a well-typed package without void outside of return types no variable, field or parameter has
    type void, however deep. -/
theorem WellTyped.voidFree {package : Package} {analysis : Analysis}
    {plain : Bool} (h : package.WellTyped true plain analysis) :
    analysis.table.signature.VoidFree where
  symbols := h.table.avoidsVoid rfl
  params := by
    intro m p hmem
    obtain ⟨info, hkind, hparam⟩ := SymbolTable.method_of_mem_paramsOf hmem
    exact h.table.avoidsVoid rfl p .param (h.table.kind?_param hkind hparam) rfl

/-- An accepted program is well typed. -/
theorem wellTyped_of_check {package package' : Package} {analysis : Analysis} {log : Diagnostic.Log}
    {strict plain : Bool} (hcheck : package.check .any = (.ok (package', analysis), log))
    (hdisciplined : package.Disciplined strict plain) : package'.WellTyped strict plain analysis := by
  unfold check at hcheck
  dsimp only at hcheck
  split at hcheck
  next => cases (Prod.mk.inj hcheck).1
  next found hanalysis =>
  split at hcheck
  next => cases (Prod.mk.inj hcheck).1
  next hclean =>
  obtain ⟨hfound, rfl⟩ := Prod.mk.inj hcheck
  obtain ⟨rfl, rfl⟩ := Prod.mk.inj (Except.ok.inj hfound)
  have hclean : package.analyze.log = [] := by simpa [Policy.any] using hclean
  unfold analyze at hanalysis hclean ⊢
  cases hrun : (ClassDef.analyzeAll package.classes).run .initial |>.run [] with
  | error classes log => simp [hrun] at hanalysis
  | ok result log =>
    obtain ⟨classes, bindings⟩ := result
    simp only [hrun] at hanalysis hclean ⊢
    obtain rfl := Option.some.inj hanalysis
    cases hentry : (entryMethod? { package with classes }).bind (·.binding) with
    | none => simp [hentry, Diagnostic.Log.report] at hclean
    | some m =>
      rw [hentry] at hclean
      obtain rfl : log = [] := hclean
      obtain ⟨hwf, hdeclares, hlocals, htyped⟩ :=
        ((ClassDef.analyzeAll_ensures strict plain package.classes .initial).ok hrun).2 rfl
          (Bindings.initial_wellFormed strict).1 hdisciplined
      have hmethods : classes.flatMap ClassDef.methodIds =
          (classes.flatMap (·.methods)).filterMap (·.binding) := by
        rw [List.filterMap_flatMap]
        rfl
      obtain ⟨method, hfind, hbound⟩ := Option.bind_eq_some_iff.1 hentry
      obtain ⟨-, hbuiltins, hspans, hcomplete⟩ := hdeclares
      dsimp only at hwf hbuiltins hspans hcomplete hlocals htyped
      rw [hmethods] at hspans hcomplete
      refine ⟨hwf.table, hwf.println, ?_, ?_, hspans.sorted, ?_, ?_, ?_, ?_⟩
      · intro method hmem
        obtain ⟨cls, hcls, hmethod⟩ := List.mem_flatMap.1 hmem
        exact (htyped cls hcls method hmethod).2
      · intro hplain method hmem
        obtain ⟨cls, hcls, hmethod⟩ := List.mem_flatMap.1 hmem
        exact (htyped cls hcls method hmethod).1 hplain
      · rintro m hmem rfl
        obtain ⟨owner, hkind⟩ := (Bindings.initial_wellFormed strict).1.println.kind
        have hlt := lt_size_of_kind? hkind
        have hle := (hspans.bounds _ hmem).1
        rw [hbuiltins] at hle
        exact Nat.lt_irrefl _ (Nat.lt_of_lt_of_le hlt hle)
      · rw [List.flatMap_assoc]
        exact hlocals
      · intro m info hkind
        refine (hcomplete m info hkind).imp_left ?_
        rintro ⟨info, hkind⟩
        rw [hbuiltins]
        exact (Bindings.initial_wellFormed strict).2 m info hkind
      · exact ⟨method, List.mem_of_find?_eq_some hfind, List.find?_some hfind, m, hbound, rfl⟩

end Package

end SmallJava
