import Mathlib.Data.List.Forall2
import SmallJava.Analysis.Check
import SmallJava.Proofs.Outcome

namespace SmallJava

variable {μ ν α β : Type}

/-- Whatever is reported, a result has the first property, and the node that is left when the
    analysis ends early has the second. -/
structure Check.Yields (part : Check ν α) (Q : α → Prop) (L : ν → Prop) : Prop where
  ok : ∀ {log log' : Diagnostic.Log} {a : α}, part log = .ok a log' → Q a
  error : ∀ {log log' : Diagnostic.Log} {node : ν}, part log = .error node log' → L node

namespace Check

variable {Q : α → Prop} {R : β → Prop} {L : ν → Prop}

theorem Yields.weaken {part : Check ν α} {Q' : α → Prop} {L' : ν → Prop} (h : part.Yields Q L)
    (himp : ∀ a, Q a → Q' a) (himp' : ∀ node, L node → L' node) : part.Yields Q' L' where
  ok := fun hrun => himp _ (h.ok hrun)
  error := fun hrun => himp' _ (h.error hrun)

theorem yields_pure {a : α} (h : Q a) : Yields (pure a : Check ν α) Q L where
  ok := by
    rintro log _ _ ⟨⟩
    exact h
  error := nofun

/-- In a sequence the second part may use what the first is known to give. -/
theorem Yields.bind {part : Check ν α} {f : α → Check ν β} (hpart : part.Yields Q L)
    (hf : ∀ a, Q a → (f a).Yields R L) : Yields (part >>= f) R L where
  ok := by
    intro log log' b hrun
    obtain ⟨a, mid, hfirst, hrest⟩ := bind_eq_ok_iff.1 hrun
    exact (hf a (hpart.ok hfirst)).ok hrest
  error := by
    intro log log' node hrun
    obtain hfirst | ⟨a, mid, hfirst, hrest⟩ := bind_eq_error_iff.1 hrun
    · exact hpart.error hfirst
    · exact (hf a (hpart.ok hfirst)).error hrest

theorem yields_report {found : List Diagnostic} :
    Yields (report found : Check ν Unit) (fun _ => True) L where
  ok := fun _ => trivial
  error := nofun

theorem yields_abort {node : ν} {fatal : Diagnostic} (h : L node) :
    Yields (abort node fatal) Q L where
  ok := nofun
  error := by
    rintro log _ _ ⟨⟩
    exact h

theorem yields_orAbort {node : ν} {result : Except Diagnostic α} (h : L node) :
    Yields (orAbort node result) (fun a => result = .ok a) L := by
  cases result with
  | ok a => exact yields_pure rfl
  | error fatal => exact yields_abort h

/-- What a part leaves when it ends early is seen through the node around it. -/
theorem Yields.within {part : Check μ α} {rebuild : μ → ν}
    (h : part.Yields Q fun node => L (rebuild node)) : Yields (within rebuild part) Q L where
  ok := fun hrun => h.ok (within_eq_ok_iff.1 hrun)
  error := by
    intro log log' node hrun
    obtain ⟨found, hpart, rfl⟩ := within_eq_error_iff.1 hrun
    exact h.error hpart

theorem yields_conclude {verdict : Ty × List Diagnostic} :
    Yields (conclude verdict : Check ν Ty) (fun ty => ty = verdict.1) L :=
  yields_report.bind fun _ _ => yields_pure rfl

/-- A part is analysed, and what becomes of it is put into the node around it. -/
theorem Yields.bindWithin {part : Check μ α} {M : μ → Prop} {rebuild : μ → ν} {f : α → Check ν β}
    (hpart : part.Yields Q M) (hnode : ∀ node, M node → L (rebuild node))
    (hf : ∀ a, Q a → (f a).Yields R L) : Yields (Check.within rebuild part >>= f) R L := by
  have hnode' : part.Yields Q fun node => L (rebuild node) := hpart.weaken (fun _ => id) hnode
  exact hnode'.within.bind hf

/-- The way most analyses of an expression end. -/
theorem yields_concluded {verdict : Ty × List Diagnostic} {f : Ty → β}
    (h : ∀ ty, ty = verdict.1 → R (f ty)) :
    Yields (conclude verdict >>= fun ty => pure (f ty) : Check ν β) R L :=
  yields_conclude.bind fun ty hty => yields_pure (h ty hty)

/-- The way most analyses of a statement end. -/
theorem yields_reported {found : List Diagnostic} {b : β} (h : R b) :
    Yields (report found >>= fun _ => pure b : Check ν β) R L :=
  yields_report.bind fun _ _ => yields_pure h

end Check

/-- Like `Check.Yields`, from names and declarations with a property. -/
def Walk.Yields (P : Bindings → Prop) (part : Walk ν α) (Q : α → Bindings → Prop) (L : ν → Prop) :
    Prop :=
  ∀ before, P before → Check.Yields (part before) (fun result => Q result.1 result.2) L

namespace Walk

variable {P : Bindings → Prop} {Q : α → Bindings → Prop} {R : β → Bindings → Prop} {L : ν → Prop}

theorem Yields.weaken {part : Walk ν α} {P' : Bindings → Prop} {Q' : α → Bindings → Prop}
    {L' : ν → Prop} (h : part.Yields P Q L) (hpre : ∀ b, P' b → P b) (hpost : ∀ a b, Q a b → Q' a b)
    (hleft : ∀ node, L node → L' node) : part.Yields P' Q' L' :=
  fun before hbefore => (h before (hpre before hbefore)).weaken (fun _ => hpost _ _) hleft

/-- What is known of a part from two sides. -/
theorem Yields.and {part : Walk ν α} {Q' : α → Bindings → Prop} (h : part.Yields P Q L)
    (h' : part.Yields P Q' L) : part.Yields P (fun a b => Q a b ∧ Q' a b) L :=
  fun before hbefore => ⟨fun hrun => ⟨(h before hbefore).ok hrun, (h' before hbefore).ok hrun⟩,
    (h before hbefore).error⟩

/-- What is known of the parts before does not depend on names and declarations. -/
theorem Yields.intro {φ : Prop} {part : Walk ν α} (h : φ → part.Yields P Q L) :
    part.Yields (fun b => φ ∧ P b) Q L :=
  fun before hbefore => h hbefore.1 before hbefore.2

/-- The precondition may be met by one state only. -/
theorem Yields.from_state {part : Walk ν α} (h : part.Yields P Q L) {b : Bindings} (hb : P b) :
    part.Yields (· = b) Q L :=
  fun _ heq => h _ (heq ▸ hb)

/-- It is enough to look at the names and declarations with the property one by one. -/
theorem Yields.of_eq {part : Walk ν α} (h : ∀ b, P b → part.Yields (· = b) Q L) : part.Yields P Q L :=
  fun before hbefore => h before hbefore before rfl

theorem yields_pure {a : α} (h : ∀ b, P b → Q a b) : Yields P (pure a : Walk ν α) Q L :=
  fun before hbefore => Check.yields_pure (h before hbefore)

theorem Yields.bind {part : Walk ν α} {f : α → Walk ν β} (hpart : part.Yields P Q L)
    (hf : ∀ a, (f a).Yields (Q a) R L) : Yields P (part >>= f) R L :=
  fun before hbefore => (hpart before hbefore).bind fun result => hf result.1 result.2

/-- What the next part does may depend on the names and declarations so far. -/
theorem Yields.get_bind {f : Bindings → Walk ν β} (hf : ∀ b, P b → (f b).Yields (· = b) R L) :
    Yields P (get >>= f) R L :=
  fun before hbefore => (hf before hbefore) before rfl

theorem yields_set {bindings : Bindings} {Q : PUnit → Bindings → Prop} (h : Q .unit bindings) :
    Yields P (set bindings : Walk ν PUnit) Q L :=
  fun _ _ => Check.yields_pure h

theorem yields_modify {f : Bindings → Bindings} {Q : PUnit → Bindings → Prop}
    (h : ∀ b, P b → Q .unit (f b)) :
    Yields P (modify f : Walk ν PUnit) Q L :=
  fun before hbefore => Check.yields_pure (h before hbefore)

theorem yields_onScope {f : Scope → Scope} {Q : Unit → Bindings → Prop}
    (h : ∀ b, P b → Q () { b with scope := f b.scope }) : Yields P (onScope f : Walk ν Unit) Q L :=
  yields_modify h

/-- A part that looks at bindings without changing them. -/
theorem yields_lift {part : Check ν α} {Q' : α → Prop} (h : part.Yields Q' L) :
    Yields P (liftM part : Walk ν α) (fun a b => Q' a ∧ P b) L :=
  fun _ hbefore => h.bind fun _ ha => Check.yields_pure ⟨ha, hbefore⟩

theorem yields_report {found : List Diagnostic} :
    Yields P (report found : Walk ν Unit) (fun _ b => P b) L :=
  (yields_lift Check.yields_report).weaken (fun _ => id) (fun _ _ h => h.2) fun _ => id

theorem Yields.within {part : Walk μ α} {rebuild : μ → ν}
    (h : part.Yields P Q fun node => L (rebuild node)) : Yields P (within rebuild part) Q L :=
  fun before hbefore => (h before hbefore).within

/-- What each step over a list preserves, given the nodes before and those still to come. -/
theorem yields_each {walk : ν → Walk ν ν} (inv : List ν → List ν → Bindings → Prop)
    (h : ∀ done node rest, (walk node).Yields (inv done (node :: rest))
      (fun node' => inv (done ++ [node']) rest) fun _ => True) : (nodes done : List ν) →
    (each walk nodes).Yields (inv done nodes) (fun nodes' => inv (done ++ nodes') []) fun _ => True
  | [], done => yields_pure fun _ h => by simpa using h
  | node :: rest, done => by
    refine (Yields.within (h done node rest)).bind fun node' => ?_
    refine (Yields.within (yields_each inv h rest (done ++ [node']))).bind fun rest' => ?_
    exact yields_pure fun _ h => by simpa using h

/-- Each result of a walk over a list comes from one of its nodes. -/
theorem exists_of_mem_results {R : α → β → Prop} {nodes : List α} {results : List β}
    (h : List.Forall₂ R nodes results) {b : β} (hmem : b ∈ results) : ∃ a ∈ nodes, R a b := by
  induction h with
  | nil => cases hmem
  | cons hfirst _ ih =>
    obtain rfl | hmem := List.mem_cons.1 hmem
    · exact ⟨_, List.mem_cons_self, hfirst⟩
    · obtain ⟨a, hin, ha⟩ := ih hmem
      exact ⟨a, List.mem_cons_of_mem _ hin, ha⟩

theorem map_results {f : α → β} {R : α → α → Prop} (hsame : ∀ a b, R a b → f b = f a)
    {nodes results : List α} (h : List.Forall₂ R nodes results) : results.map f = nodes.map f := by
  induction h with
  | nil => rfl
  | cons hfirst _ ih => rw [List.map_cons, List.map_cons, ih, hsame _ _ hfirst]

/-- What each step over a list makes of its node, as long as it keeps the invariant. -/
theorem yields_forall {walk : ν → Walk ν ν} (inv : Bindings → Prop) {R : ν → ν → Prop} :
    (nodes : List ν) → (∀ node ∈ nodes,
      (walk node).Yields inv (fun node' b => R node node' ∧ inv b) fun _ => True) →
        (each walk nodes).Yields inv (fun nodes' b => List.Forall₂ R nodes nodes' ∧ inv b) fun _ => True
  | [], _ => yields_pure fun _ hb => ⟨.nil, hb⟩
  | node :: rest, h => by
    refine (Yields.within (h node List.mem_cons_self)).bind fun node' => Yields.intro fun hnode => ?_
    refine (Yields.within (yields_forall inv rest fun other hmem =>
      h other (List.mem_cons_of_mem _ hmem))).bind fun rest' => Yields.intro fun hrest => ?_
    exact yields_pure fun _ hb => ⟨.cons hnode hrest, hb⟩

theorem Yields.map {part : Walk ν α} {f : α → β} (h : part.Yields P Q L)
    (himp : ∀ a b, Q a b → R (f a) b) : Yields P (f <$> part) R L := by
  rw [map_eq_pure_bind]
  exact h.bind fun a => yields_pure (himp a)

end Walk

end SmallJava
