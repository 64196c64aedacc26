import SmallJava.Proofs.Analysis.Ensures
import SmallJava.Proofs.Outcome

namespace SmallJava

variable {μ ν α β : Type}

/-- Analysis reports nothing and has this result. -/
def Check.Passes (part : Check ν α) (a : α) : Prop := part [] = .ok a []

/-- Nothing that was reported is lost, and analysis reports nothing exactly if its result has
the property. -/
structure Check.Accepts (part : Check ν α) (Q : α → Prop) : Prop where
  appends : part.Ensures fun _ => True
  iff : ∀ a, part.Passes a ↔ Q a

namespace Check

variable {Q : α → Prop} {R : α → β → Prop}

theorem Ensures.appends {part : Check ν α} (h : part.Ensures Q) : part.Ensures fun _ => True :=
  h.weaken fun _ _ => trivial

theorem accepts_passes {part : Check ν α} (h : part.Ensures Q) : part.Accepts part.Passes :=
  ⟨h.appends, fun _ => .rfl⟩

theorem Accepts.congr {part : Check ν α} {Q' : α → Prop} (h : part.Accepts Q)
    (hiff : ∀ a, Q a ↔ Q' a) : part.Accepts Q' :=
  ⟨h.appends, fun a => (h.iff a).trans (hiff a)⟩

theorem accepts_pure {a : α} : Accepts (pure a : Check ν α) (· = a) where
  appends := ensures_pure trivial
  iff := fun b => by
    unfold Passes
    rw [pure_eq_ok_iff]
    simp [eq_comm]

/-- A sequence of two parts reports nothing exactly if neither part does. -/
theorem Accepts.bind {part : Check ν α} {f : α → Check ν β} (hpart : part.Accepts Q)
    (hf : ∀ a, (f a).Accepts (R a)) : Accepts (part >>= f) fun b => ∃ a, Q a ∧ R a b where
  appends := hpart.appends.bind fun a => (hf a).appends.weaken fun _ _ _ => trivial
  iff := by
    intro b
    constructor
    · intro hrun
      obtain ⟨a, mid, hfirst, hrest⟩ := bind_eq_ok_iff.1 hrun
      obtain rfl : mid = [] := List.prefix_nil.1 ((hf a).appends.ok hrest).1
      exact ⟨a, (hpart.iff a).1 hfirst, ((hf a).iff b).1 hrest⟩
    · rintro ⟨a, ha, hb⟩
      exact bind_eq_ok_iff.2 ⟨a, [], (hpart.iff a).2 ha, ((hf a).iff b).2 hb⟩

theorem accepts_report {found : List Diagnostic} :
    Accepts (report found : Check ν Unit) fun _ => found = [] where
  appends := ensures_report.appends
  iff := fun _ => by
    change EStateM.Result.ok () ([] ++ found) = .ok () [] ↔ _
    simp

/-- A report in between has to be empty. -/
theorem Accepts.after_report {found : List Diagnostic} {f : Unit → Check ν β} {R : β → Prop}
    (hf : (f ()).Accepts R) : Accepts (report found >>= f) fun b => found = [] ∧ R b := by
  refine (accepts_report.bind fun _ => hf).congr fun b => ?_
  constructor
  · rintro ⟨-, h⟩
    exact h
  · intro h
    exact ⟨(), h⟩

theorem accepts_abort {node : ν} {fatal : Diagnostic} :
    Accepts (abort node fatal : Check ν α) fun _ => False where
  appends := ensures_abort
  iff := fun _ => by
    constructor
    · rintro ⟨⟩
    · exact False.elim

theorem accepts_orAbort {node : ν} {result : Except Diagnostic α} :
    Accepts (orAbort node result) fun a => result = .ok a := by
  cases result with
  | ok a => exact accepts_pure.congr fun b => by simp [eq_comm]
  | error fatal => exact accepts_abort.congr fun b => by simp

theorem Accepts.within {part : Check μ α} (h : part.Accepts Q) (rebuild : μ → ν) :
    Accepts (within rebuild part) Q where
  appends := h.appends.within rebuild
  iff := fun a => by
    rw [← h.iff]
    unfold Passes Check.within
    cases part [] <;> simp

/-- A verdict is accepted if nothing is reported with it. -/
theorem accepts_conclude {verdict : Ty × List Diagnostic} :
    Accepts (conclude verdict : Check ν Ty) fun ty => verdict = (ty, []) := by
  obtain ⟨found, mistakes⟩ := verdict
  refine (accepts_report.bind fun _ => accepts_pure).congr fun ty => ?_
  constructor
  · rintro ⟨-, rfl, rfl⟩
    rfl
  · rintro ⟨⟩
    exact ⟨(), rfl, rfl⟩

end Check

/-- Analysis that starts with these names and declarations reports nothing, and has this result
with the names and declarations after it. -/
def Walk.Passes (part : Walk ν α) (before : Bindings) (a : α) (after : Bindings) : Prop :=
  Check.Passes (part before) (a, after)

/-- Like `Check.Accepts`. The property relates the names and declarations before, the result, and
the names and declarations after. -/
def Walk.Accepts (part : Walk ν α) (Q : Bindings → α → Bindings → Prop) : Prop :=
  ∀ before, Check.Accepts (part before) fun result => Q before result.1 result.2

namespace Walk

variable {Q : Bindings → α → Bindings → Prop} {R : α → Bindings → β → Bindings → Prop}

theorem accepts_passes {part : Walk ν α} (h : part.Ensures Q) : part.Accepts part.Passes :=
  fun before => Check.accepts_passes (h before)

theorem Accepts.iff {part : Walk ν α} (h : part.Accepts Q) (before : Bindings) (a : α)
    (after : Bindings) : part.Passes before a after ↔ Q before a after :=
  (h before).iff (a, after)

theorem Accepts.congr {part : Walk ν α} {Q' : Bindings → α → Bindings → Prop} (h : part.Accepts Q)
    (hiff : ∀ before a after, Q before a after ↔ Q' before a after) : part.Accepts Q' :=
  fun before => (h before).congr fun result => hiff before result.1 result.2

theorem accepts_pure {a : α} :
    Accepts (pure a : Walk ν α) fun before b after => b = a ∧ after = before :=
  fun _ => Check.accepts_pure.congr fun _ => Prod.ext_iff

theorem Accepts.bind {part : Walk ν α} {f : α → Walk ν β} (hpart : part.Accepts Q)
    (hf : ∀ a, (f a).Accepts (R a)) : Accepts (part >>= f) fun before b after =>
      ∃ a mid, Q before a mid ∧ R a mid b after :=
  fun before => ((hpart before).bind fun result => hf result.1 result.2).congr fun _ =>
    ⟨fun ⟨result, h⟩ => ⟨result.1, result.2, h⟩, fun ⟨a, mid, h⟩ => ⟨(a, mid), h⟩⟩

theorem accepts_get : Accepts (get : Walk ν Bindings) fun before found after =>
    found = before ∧ after = before :=
  fun _ => Check.accepts_pure.congr fun _ => Prod.ext_iff

theorem passes_get_bind {f : Bindings → Walk ν β} {before after : Bindings} {b : β} :
    Passes (get >>= f) before b after ↔ (f before).Passes before b after := Iff.rfl

theorem accepts_set {bindings : Bindings} :
    Accepts (set bindings : Walk ν PUnit) fun _ _ after => after = bindings :=
  fun _ => Check.accepts_pure.congr fun _ => by simp [Prod.ext_iff]

theorem accepts_modify {f : Bindings → Bindings} :
    Accepts (modify f : Walk ν PUnit) fun before _ after => after = f before :=
  fun _ => Check.accepts_pure.congr fun _ => by simp [Prod.ext_iff]

theorem accepts_onScope {f : Scope → Scope} :
    Accepts (onScope f : Walk ν Unit) fun before _ after =>
      after = { before with scope := f before.scope } :=
  fun _ => Check.accepts_pure.congr fun _ => by simp [Prod.ext_iff]

/-- A part that looks at bindings without changing them. -/
theorem accepts_lift {part : Check ν α} {P : α → Prop} (h : part.Accepts P) :
    Accepts (liftM part : Walk ν α) fun before a after => P a ∧ after = before :=
  fun before => (h.bind fun a => Check.accepts_pure).congr fun result => by
    constructor
    · rintro ⟨a, ha, rfl⟩
      exact ⟨ha, rfl⟩
    · rintro ⟨ha, hsame⟩
      exact ⟨result.1, ha, Prod.ext rfl hsame⟩

theorem accepts_report {found : List Diagnostic} :
    Accepts (report found : Walk ν Unit) fun before _ after => found = [] ∧ after = before :=
  accepts_lift Check.accepts_report

theorem Accepts.within {part : Walk μ α} (h : part.Accepts Q) (rebuild : μ → ν) :
    Accepts (within rebuild part) Q := fun before => (h before).within rebuild

/-- From names and declarations with an invariant, which it keeps, analysis reports nothing exactly
if the condition holds. -/
structure Decides (part : Walk ν α) (inv : Bindings → Prop) (φ : Prop) : Prop where
  iff : ∀ b, inv b → ((∃ a after, part.Passes b a after) ↔ φ)
  keeps : ∀ b a after, inv b → part.Passes b a after → inv after

variable {inv : Bindings → Prop}

/-- A list of nodes passes if the first passes and the others do after it. A report is never taken
back, so that silence at the end is silence all along. -/
theorem passes_each_cons {walk : ν → Walk ν ν} (happends : ∀ node b, (walk node b).Ensures fun _ => True)
    {node : ν} {rest : List ν} {b after : Bindings} {nodes' : List ν} :
    (each walk (node :: rest)).Passes b nodes' after ↔ ∃ node' mid, (walk node).Passes b node' mid ∧
      ∃ rest', (each walk rest).Passes mid rest' after ∧ nodes' = node' :: rest' := by
  have hfirst : (walk node).Accepts (walk node).Passes := fun b =>
    Check.accepts_passes (happends node b)
  have hrest : (each walk rest).Accepts (each walk rest).Passes := by
    have hensures : ∀ node, (walk node).Ensures fun _ _ _ => True := happends
    exact accepts_passes (ensures_each (R := fun _ _ _ _ => True) hensures (fun _ => trivial)
      (fun _ _ _ _ _ _ _ _ _ => trivial) rest)
  refine (((hfirst.within _).bind fun node' => (hrest.within _).bind fun rest' =>
    accepts_pure).iff b nodes' after).trans ?_
  constructor
  · rintro ⟨node', mid, hnode, rest', _, hrest, rfl, rfl⟩
    exact ⟨node', mid, hnode, rest', hrest, rfl⟩
  · rintro ⟨node', mid, hnode, rest', hrest, rfl⟩
    exact ⟨node', mid, hnode, rest', _, hrest, rfl, rfl⟩

/-- A walk over a list decides the conditions on all its members. -/
theorem decides_each {walk : ν → Walk ν ν} {rule : ν → Prop}
    (happends : ∀ node b, (walk node b).Ensures fun _ => True) (nodes : List ν)
    (h : ∀ node ∈ nodes, (walk node).Decides inv (rule node)) :
    (each walk nodes).Decides inv (∀ node ∈ nodes, rule node) := by
  induction nodes with
  | nil =>
    refine ⟨fun b _ => iff_of_true ⟨[], b, rfl⟩ (by simp), ?_⟩
    rintro b a after hb hpasses
    obtain ⟨-, rfl⟩ := (accepts_pure.iff b a after).1 hpasses
    exact hb
  | cons node rest ih =>
    have hnode := h node List.mem_cons_self
    have hrest := ih fun other hmem => h other (List.mem_cons_of_mem _ hmem)
    refine ⟨fun b hb => ?_, fun b nodes' after hb hpasses => ?_⟩
    · rw [List.forall_mem_cons]
      constructor
      · rintro ⟨nodes', after, hpasses⟩
        obtain ⟨node', mid, hfirst, rest', hothers, -⟩ := (passes_each_cons happends).1 hpasses
        have hmid := hnode.keeps b node' mid hb hfirst
        exact ⟨(hnode.iff b hb).1 ⟨node', mid, hfirst⟩, (hrest.iff mid hmid).1 ⟨rest', after, hothers⟩⟩
      · rintro ⟨hrule, hrules⟩
        obtain ⟨node', mid, hfirst⟩ := (hnode.iff b hb).2 hrule
        have hmid := hnode.keeps b node' mid hb hfirst
        obtain ⟨rest', after, hothers⟩ := (hrest.iff mid hmid).2 hrules
        exact ⟨_, after, (passes_each_cons happends).2 ⟨node', mid, hfirst, rest', hothers, rfl⟩⟩
    · obtain ⟨node', mid, hfirst, rest', hothers, -⟩ := (passes_each_cons happends).1 hpasses
      exact hrest.keeps mid rest' after (hnode.keeps b node' mid hb hfirst) hothers

/-- A walk over a list reports nothing if no step does, given the nodes before and those still to
come. -/
theorem passes_each {walk : ν → Walk ν ν}
    (happends : ∀ node b, (walk node b).Ensures fun _ => True)
    (inv : List ν → List ν → Bindings → Prop)
    (h : ∀ done node rest b, inv done (node :: rest) b → ∃ node' after,
      (walk node).Passes b node' after ∧ inv (done ++ [node']) rest after) : (nodes done : List ν) →
    (b : Bindings) → inv done nodes b → ∃ nodes' after, (each walk nodes).Passes b nodes' after
  | [], done, b, _ => ⟨[], b, rfl⟩
  | node :: rest, done, b, hb => by
    obtain ⟨node', mid, hfirst, hmid⟩ := h done node rest b hb
    obtain ⟨rest', after, hothers⟩ := passes_each happends inv h rest (done ++ [node']) mid hmid
    exact ⟨_, after, (passes_each_cons happends).2 ⟨node', mid, hfirst, rest', hothers, rfl⟩⟩

end Walk

end SmallJava
