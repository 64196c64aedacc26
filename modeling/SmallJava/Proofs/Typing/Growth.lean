import SmallJava.Proofs.Analysis.ScopeCover
import SmallJava.Proofs.Typing.ExprSoundness

namespace SmallJava

/-- Being declared outside the lists of a class. -/
def SymbolKind.isVariable : SymbolKind → Bool
  | param | localVar | arrayLength => true
  | _ => false

namespace SymbolTable

variable {kind : SymbolKind} {strict : Bool} {t₁ t₂ t₃ : SymbolTable}

theorem lt_size_of_get? {table : SymbolTable} {x : SymbolId} {symbol : Symbol}
    (hget : table.get? x = some symbol) : x.index < table.size :=
  (Array.getElem?_eq_some_iff.1 hget).1

theorem lt_size_of_kind? {table : SymbolTable} {x : SymbolId} {kind : SymbolKind}
    (hkind : table.kind? x = some kind) : x.index < table.size := by
  obtain ⟨symbol, hget, -⟩ := Option.map_eq_some_iff.1 hkind
  exact lt_size_of_get? hget

theorem get?_of_ge {table : SymbolTable} {x : SymbolId} (hge : table.size ≤ x.index) :
    table.get? x = none := Array.getElem?_eq_none hge

theorem kind?_congr {x : SymbolId} (hget : t₂.get? x = t₁.get? x) : t₂.kind? x = t₁.kind? x := by
  simp [kind?, hget]

theorem typeOf_congr {x : SymbolId} (hget : t₂.get? x = t₁.get? x) :
    t₂.typeOf x = t₁.typeOf x := by
  simp [typeOf, hget]

/-- The second table adds variables of one kind to the first. If the types of variables are
    to avoid `void`, theirs do. -/
structure AddsVariables (kind : SymbolKind) (strict : Bool) (before after : SymbolTable) : Prop where
  isVariable : kind.isVariable = true
  size : before.size ≤ after.size
  kept : ∀ x : SymbolId, x.index < before.size → after.get? x = before.get? x
  added : ∀ (x : SymbolId) symbol, before.size ≤ x.index → after.get? x = some symbol →
    symbol.kind = kind ∧ symbol.slot = none ∧ symbol.ty.isWritten = true ∧
      (strict = true → symbol.ty.avoidsVoid = true)
  classes : after.classes = before.classes

abbrev AddsLocals (strict : Bool) : SymbolTable → SymbolTable → Prop :=
  AddsVariables .localVar strict

namespace AddsVariables

/-- A table becomes itself when no variable is added. -/
theorem refl (hvar : kind.isVariable = true) (strict : Bool)
    (table : SymbolTable) : AddsVariables kind strict table table where
  isVariable := hvar
  size := Nat.le_refl _
  kept := fun _ _ => rfl
  added := by
    intro x symbol hge hget
    rw [get?_of_ge hge] at hget
    cases hget
  classes := rfl

/-- Variables that are added in two steps are added. -/
theorem trans (h₁ : AddsVariables kind strict t₁ t₂) (h₂ : AddsVariables kind strict t₂ t₃) :
    AddsVariables kind strict t₁ t₃ where
  isVariable := h₁.isVariable
  size := Nat.le_trans h₁.size h₂.size
  kept := by
    intro x hlt
    rw [h₂.kept x (Nat.lt_of_lt_of_le hlt h₁.size), h₁.kept x hlt]
  added := by
    intro x symbol hge hget
    by_cases hmid : x.index < t₂.size
    · rw [h₂.kept x hmid] at hget
      exact h₁.added x symbol hge hget
    · exact h₂.added x symbol (Nat.le_of_not_lt hmid) hget
  classes := h₂.classes.trans h₁.classes

/-- A variable of a type that can be written may be added. -/
theorem add (hvar : kind.isVariable = true) (table : SymbolTable) (name : String)
    {ty : Ty} (span : Span) (hwritten : ty.isWritten = true)
    (hvoid : strict = true → ty.avoidsVoid = true) :
    AddsVariables kind strict table (table.add name kind ty span) where
  isVariable := hvar
  size := by simp
  kept := by
    intro x hlt
    rw [get?_add, if_neg]
    rintro rfl
    exact Nat.lt_irrefl _ hlt
  added := by
    intro x symbol hge hget
    rw [get?_add] at hget
    split at hget
    next =>
      obtain rfl := Option.some.inj hget
      exact ⟨rfl, rfl, hwritten, hvoid⟩
    next =>
      rw [get?_of_ge hge] at hget
      cases hget
  classes := by
    have hcls : kind.isClass = false := by
      cases kind <;> first | rfl | cases hvar
    simp [SymbolTable.add, hcls]

theorem kind?_eq_some (h : AddsVariables kind strict t₁ t₂) {x : SymbolId} {found : SymbolKind}
    (hkind : t₁.kind? x = some found) : t₂.kind? x = some found := by
  rw [kind?_congr (h.kept x (lt_size_of_kind? hkind)), hkind]

theorem typeOf_eq (h : AddsVariables kind strict t₁ t₂) {x : SymbolId} {found : SymbolKind}
    (hkind : t₁.kind? x = some found) : t₂.typeOf x = t₁.typeOf x :=
  typeOf_congr (h.kept x (lt_size_of_kind? hkind))

/-- Every declaration was there before or is one of a variable. -/
theorem kind?_cases (h : AddsVariables kind strict t₁ t₂) {x : SymbolId} {found : SymbolKind}
    (hkind : t₂.kind? x = some found) :
    t₁.kind? x = some found ∧ t₂.typeOf x = t₁.typeOf x ∨
      found = kind ∧ (t₂.typeOf x).isWritten = true ∧
        (strict = true → (t₂.typeOf x).avoidsVoid = true) := by
  by_cases hlt : x.index < t₁.size
  · rw [kind?_congr (h.kept x hlt)] at hkind
    exact .inl ⟨hkind, typeOf_congr (h.kept x hlt)⟩
  · obtain ⟨symbol, hget, rfl⟩ := Option.map_eq_some_iff.1 hkind
    obtain ⟨hfound, -, hwritten, hvoid⟩ := h.added x symbol (Nat.le_of_not_lt hlt) hget
    refine .inr ⟨hfound, ?_⟩
    simpa [typeOf, hget] using And.intro hwritten hvoid

/-- Everything but variables was there before. -/
theorem kind?_iff (h : AddsVariables kind strict t₁ t₂) {x : SymbolId} {found : SymbolKind}
    (hfound : found.isVariable = false) :
    t₂.kind? x = some found ↔ t₁.kind? x = some found := by
  refine ⟨fun hkind => ?_, h.kind?_eq_some⟩
  obtain ⟨hkind, -⟩ | ⟨rfl, -⟩ := h.kind?_cases hkind
  · exact hkind
  · rw [h.isVariable] at hfound
    cases hfound

theorem kind?_cls_iff (h : AddsVariables kind strict t₁ t₂) {x : SymbolId} {info : ClassInfo} :
    t₂.kind? x = some (.cls info) ↔ t₁.kind? x = some (.cls info) := h.kind?_iff rfl

theorem kind?_method_iff (h : AddsVariables kind strict t₁ t₂) {x : SymbolId} {info : MethodInfo} :
    t₂.kind? x = some (.method info) ↔ t₁.kind? x = some (.method info) :=
  h.kind?_iff rfl

theorem within (h : AddsVariables kind strict t₁ t₂) {sig : Signature} (hwithin : t₂.Within sig) :
    t₁.Within sig := by
  intro x found hkind
  have hfound := hwithin x found (h.kind?_eq_some hkind)
  rw [h.typeOf_eq hkind] at hfound
  exact hfound

theorem memberOf (h : AddsVariables kind strict t₁ t₂) {cls x : SymbolId}
    (hmember : t₁.signature.MemberOf cls x) : t₂.signature.MemberOf cls x := by
  cases hmember with
  | field hkind => exact .field (h.kind?_eq_some hkind)
  | method hkind howner => exact .method (h.kind?_eq_some hkind) howner

/-- Declarations that agree with each other still do when variables are added. -/
theorem coherent (h : AddsVariables kind strict t₁ t₂) {builtins : Builtins}
    (hcoherent : t₁.Coherent builtins) : t₂.Coherent builtins where
  members := by
    intro cls info name x hinfo hget
    rw [classInfo?_eq_some_iff, h.kind?_cls_iff, ← classInfo?_eq_some_iff] at hinfo
    exact h.memberOf (hcoherent.members cls info name x hinfo hget)
  params := by
    intro m info p hkind hp
    rw [h.kind?_method_iff] at hkind
    exact h.kind?_eq_some (hcoherent.params m info p hkind hp)
  written := by
    intro x found hkind
    obtain ⟨hkind, hty⟩ | ⟨-, hwritten, -⟩ := h.kind?_cases hkind
    · rw [hty]
      exact hcoherent.written x found hkind
    · exact hwritten
  arrayLength := h.kind?_eq_some hcoherent.arrayLength
  arrayLengthTy := by
    rw [h.typeOf_eq hcoherent.arrayLength]
    exact hcoherent.arrayLengthTy

end AddsVariables

end SymbolTable

/-- Different symbols in the order of their declaration, between two sizes of the table. -/
structure SymbolId.Spans (ids : List SymbolId) (lo hi : Nat) : Prop where
  bounds : ∀ x ∈ ids, lo ≤ x.index ∧ x.index < hi
  sorted : ids.Pairwise fun x y => x.index < y.index

namespace SymbolId.Spans

theorem nil (lo hi : Nat) : Spans [] lo hi := ⟨by simp, List.Pairwise.nil⟩

/-- Identifiers that span two ranges one after the other span both together. -/
theorem append {ids ids' : List SymbolId} {lo mid hi : Nat} (h : Spans ids lo mid)
    (h' : Spans ids' mid hi) (hlo : lo ≤ mid) (hhi : mid ≤ hi) : Spans (ids ++ ids') lo hi where
  bounds := by
    intro x hmem
    obtain hmem | hmem := List.mem_append.1 hmem
    · have := h.bounds x hmem
      omega
    · have := h'.bounds x hmem
      omega
  sorted := by
    refine List.pairwise_append.2 ⟨h.sorted, h'.sorted, fun x hx y hy => ?_⟩
    have := (h.bounds x hx).2
    have := (h'.bounds y hy).1
    omega

theorem singleton {x : SymbolId} {lo hi : Nat} (hlo : lo ≤ x.index) (hhi : x.index < hi) :
    Spans [x] lo hi := by
  refine ⟨?_, List.pairwise_singleton _ _⟩
  intro y hmem
  obtain rfl := List.mem_singleton.1 hmem
  exact ⟨hlo, hhi⟩

/-- Symbols declared one after the other are different. -/
theorem nodup {ids : List SymbolId} {lo hi : Nat} (h : Spans ids lo hi) : ids.Nodup :=
  h.sorted.imp fun hlt heq => Nat.ne_of_lt hlt (congrArg SymbolId.index heq)

end SymbolId.Spans

end SmallJava
