import SmallJava.Symbol.Layout
import SmallJava.Proofs.Outcome
import SmallJava.Proofs.Signature

namespace SmallJava

/-- Slots to be assigned, in the order of their assignment. -/
abbrev SlotPlan := List (SymbolId × Int)

namespace Signature

variable (sig : Signature)

/-- The slots of fields, and the next numbers of static and instance fields. -/
def fieldPlan (statics own : Int) : List SymbolId → SlotPlan × Int × Int
  | [] => ([], statics, own)
  | field :: rest =>
    if sig.isStatic field then
      ((field, statics) :: (fieldPlan (statics + 1) own rest).1, (fieldPlan (statics + 1) own rest).2)
    else
      ((field, own) :: (fieldPlan statics (own + 1) rest).1, (fieldPlan statics (own + 1) rest).2)

/-- The slots of parameters, from an offset on. -/
def paramPlan (offset : Int) : List SymbolId → SlotPlan
  | [] => []
  | param :: rest => (param, offset) :: paramPlan (offset + 1) rest

/-- The slots of the parameters of methods. -/
def methodPlan (methods : List SymbolId) : SlotPlan :=
  methods.flatMap fun method => paramPlan (-(sig.paramsOf method).length) (sig.paramsOf method)

/-- The members of a class; nothing else has any. -/
def classInfo (cls : SymbolId) : ClassInfo := ((sig.kind? cls).bind (·.class?)).getD {}

/-- The slots of everything in classes but methods and locals, and the next number of a
static field. -/
def classPlan (statics : Int) : List SymbolId → SlotPlan × Int
  | [] => ([], statics)
  | cls :: rest =>
    let fields := sig.fieldPlan statics 0 (sig.classInfo cls).fields
    let others := classPlan fields.2.1 rest
    (fields.1 ++ (cls, fields.2.2) :: sig.methodPlan (sig.classInfo cls).methods ++ others.1,
      others.2)

end Signature

namespace SlotWriter

open SymbolTable

theorem assign_eq_ok_iff {x : SymbolId} {d : Int} {t t' : SymbolTable} :
    assign x d t = .ok () t' ↔ t.setSlot x d = .ok t' := by
  unfold assign
  cases t.setSlot x d <;> simp

theorem assigned_of_assign {x : SymbolId} {d : Int} {t t' : SymbolTable}
    (hassign : assign x d t = .ok () t') : Assigned t t' :=
  .of_setSlot (assign_eq_ok_iff.1 hassign)

/-- Follows a plan. -/
def assignAll : SlotPlan → SlotWriter Unit
  | [] => pure ()
  | (x, d) :: rest => do
    assign x d
    assignAll rest

/-- Carrying out a plan assigns slots and does nothing else. -/
theorem assigned_of_assignAll {plan : SlotPlan} {t t' : SymbolTable}
    (hassign : assignAll plan t = .ok () t') : Assigned t t' := by
  induction plan generalizing t with
  | nil =>
    obtain ⟨-, rfl⟩ := pure_eq_ok_iff.1 hassign
    exact .refl t
  | cons entry rest ih =>
    obtain ⟨_, t₁, hfirst, hrest⟩ := bind_eq_ok_iff.1 hassign
    exact (assigned_of_assign hfirst).trans (ih hrest)

/-- A plan for different symbols without slots can be followed, and gives all of them
their slots. -/
theorem assignAll_spec (plan : SlotPlan) (t : SymbolTable) (hnodup : (plan.map (·.1)).Nodup)
    (hfree : ∀ x ∈ plan.map (·.1), t.slot? x = none) :
    ∃ t', assignAll plan t = .ok () t' ∧
      (∀ x d, (x, d) ∈ plan → (t.kind? x).isSome → t'.slot? x = some d) ∧
      ∀ x, x ∉ plan.map (·.1) → t'.slot? x = t.slot? x := by
  induction plan generalizing t with
  | nil => exact ⟨t, rfl, by simp, fun _ _ => rfl⟩
  | cons entry rest ih =>
    obtain ⟨x, d⟩ := entry
    obtain ⟨hnew, hnodup⟩ := List.nodup_cons.1 hnodup
    have hset : t.setSlot x d = .ok (t.modify x fun symbol => { symbol with slot := some d }) :=
      setSlot_eq_ok_iff.2 ⟨hfree x (by simp), rfl⟩
    have hsig := signature_setSlot hset
    obtain ⟨t', hrest, hplan, hother⟩ := ih _ hnodup fun y hmem => by
      rw [slot?_setSlot_of_ne hset (fun heq => hnew (heq ▸ hmem))]
      exact hfree y (List.mem_cons_of_mem _ hmem)
    refine ⟨t', ?_, ?_, ?_⟩
    · exact (bind_of_ok (assign_eq_ok_iff.2 hset)).trans hrest
    · intro y e hmem hin
      obtain hmem | hmem := List.mem_cons.1 hmem
      · obtain ⟨rfl, rfl⟩ := Prod.mk.inj hmem
        rw [hother y hnew]
        exact slot?_setSlot_self hset hin
      · refine hplan y e hmem ?_
        rwa [← signature_kind?, hsig, signature_kind?]
    · intro y hout
      obtain ⟨hne, hout⟩ := not_or.1 (fun h => hout (List.mem_cons.2 h))
      rw [hother y hout]
      exact slot?_setSlot_of_ne hset hne

/-- What follows an assignment may rely on the declarations being the same. -/
private theorem assign_bind_congr {α : Type} {x : SymbolId} {d : Int} {t : SymbolTable}
    {sig : Signature} (hsig : t.signature = sig) {f g : SlotWriter α}
    (h : ∀ t' : SymbolTable, t'.signature = sig → f t' = g t') :
    (do assign x d; f) t = (do assign x d; g) t := by
  cases hassign : assign x d t with
  | ok u t' =>
    rw [bind_of_ok hassign, bind_of_ok hassign]
    exact h t' ((assigned_of_assign hassign).signature.trans hsig)
  | error fault t' => rw [bind_of_error hassign, bind_of_error hassign]

/-- Laying out the fields of a class carries out the plan for them, and ends with the counts of the
plan. -/
theorem layoutFields_eq (sig : Signature) (fields : List SymbolId) (statics own : Int)
    (t : SymbolTable) (hsig : t.signature = sig) :
    layoutFields statics own fields t = (do
      assignAll (sig.fieldPlan statics own fields).1
      pure (sig.fieldPlan statics own fields).2 : SlotWriter (Int × Int)) t := by
  induction fields generalizing statics own t with
  | nil => rfl
  | cons field rest ih =>
    have hstatic : t.isStatic field = sig.isStatic field := by rw [← hsig]; rfl
    unfold layoutFields Signature.fieldPlan
    rw [bind_of_ok (get_eq_ok_iff.2 ⟨rfl, rfl⟩), hstatic]
    cases sig.isStatic field with
    | true =>
      rw [if_pos rfl, if_pos rfl]
      refine (assign_bind_congr hsig fun t' hsig' => ih (statics + 1) own t' hsig').trans ?_
      rw [← bind_assoc]
      rfl
    | false =>
      rw [if_neg (by simp), if_neg (by simp)]
      refine (assign_bind_congr hsig fun t' hsig' => ih statics (own + 1) t' hsig').trans ?_
      rw [← bind_assoc]
      rfl

/-- Laying out the parameters of a method carries out the plan for them. -/
theorem layoutParams_eq (params : List SymbolId) (offset : Int) :
    layoutParams offset params = assignAll (Signature.paramPlan offset params) := by
  induction params generalizing offset with
  | nil => rfl
  | cons param rest ih =>
    unfold layoutParams
    rw [ih]
    rfl

/-- Two plans are carried out one after the other. -/
theorem assignAll_append (plan plan' : SlotPlan) :
    assignAll (plan ++ plan') = (do assignAll plan; assignAll plan') := by
  induction plan with
  | nil => rfl
  | cons entry rest ih =>
    obtain ⟨x, d⟩ := entry
    change (do assign x d; assignAll (rest ++ plan')) = _
    rw [ih, ← bind_assoc]
    rfl

/-- What follows a plan may be replaced by what agrees with it on every table of the same signature.
-/
private theorem assignAll_bind_congr {α : Type} {plan : SlotPlan} {t : SymbolTable}
    {sig : Signature} (hsig : t.signature = sig) {f g : SlotWriter α}
    (h : ∀ t' : SymbolTable, t'.signature = sig → f t' = g t') :
    (do assignAll plan; f) t = (do assignAll plan; g) t := by
  cases hassign : assignAll plan t with
  | ok u t' =>
    rw [bind_of_ok hassign, bind_of_ok hassign]
    exact h t' ((assigned_of_assignAll hassign).signature.trans hsig)
  | error fault t' => rw [bind_of_error hassign, bind_of_error hassign]

private theorem bind_congr_at {α β : Type} {f g : SlotWriter α} {k : α → SlotWriter β}
    {t : SymbolTable} (h : f t = g t) : (f >>= k) t = (g >>= k) t := by
  cases hf : f t with
  | ok a t' => rw [bind_of_ok hf, bind_of_ok (h.symm.trans hf)]
  | error fault t' => rw [bind_of_error hf, bind_of_error (h.symm.trans hf)]

/-- The four parts of the plan for one class and the classes after it are carried out as one plan.
-/
private theorem assignAll_then {α : Type} (fields methods others : SlotPlan)
    (cls : SymbolId × Int) (result : α) :
    (do
      assignAll fields
      assign cls.1 cls.2
      assignAll methods
      assignAll others
      pure result : SlotWriter α) = (do
      assignAll (fields ++ cls :: methods ++ others)
      pure result) := by
  have hcls : assignAll (cls :: methods) = (do assign cls.1 cls.2; assignAll methods) := rfl
  simp only [assignAll_append, hcls, bind_assoc]

/-- Laying out the methods of a class carries out the plan for their parameters. -/
theorem layoutMethods_eq (sig : Signature) (methods : List SymbolId) (t : SymbolTable)
    (hsig : t.signature = sig) : layoutMethods methods t = assignAll (sig.methodPlan methods) t := by
  induction methods generalizing t with
  | nil => rfl
  | cons method rest ih =>
    have hparams : t.paramsOf method = sig.paramsOf method := by rw [← hsig]; rfl
    unfold layoutMethods
    rw [bind_of_ok (get_eq_ok_iff.2 ⟨rfl, rfl⟩), hparams, layoutParams_eq]
    refine (assignAll_bind_congr hsig fun t' hsig' => ih t' hsig').trans ?_
    rw [← assignAll_append]
    rfl

/-- The layout of classes follows its plan. -/
theorem layoutClasses_eq (sig : Signature) (classes : List SymbolId) (statics : Int)
    (t : SymbolTable) (hsig : t.signature = sig)
    (hclasses : ∀ cls ∈ classes, ∃ info, sig.kind? cls = some (.cls info)) :
    layoutClasses statics classes t = (do
      assignAll (sig.classPlan statics classes).1
      pure (sig.classPlan statics classes).2 : SlotWriter Int) t := by
  induction classes generalizing statics t with
  | nil => rfl
  | cons cls rest ih =>
    obtain ⟨info, hkind⟩ := hclasses cls (by simp)
    have hfound : t.classInfo? cls = some info := by
      rw [classInfo?_eq_some_iff, ← signature_kind?, hsig, hkind]
    have hinfo : sig.classInfo cls = info := by
      simp [Signature.classInfo, hkind, SymbolKind.class?]
    unfold layoutClasses Signature.classPlan
    rw [bind_of_ok (get_eq_ok_iff.2 ⟨rfl, rfl⟩), hfound, hinfo]
    refine (bind_congr_at (layoutFields_eq sig info.fields statics 0 t hsig)).trans ?_
    rw [bind_assoc]
    refine (assignAll_bind_congr hsig fun t₁ hsig₁ => ?_).trans
      (congrFun (assignAll_then _ _ _ _ _) t)
    refine assign_bind_congr hsig₁ fun t₂ hsig₂ => ?_
    refine (bind_congr_at (layoutMethods_eq sig info.methods t₂ hsig₂)).trans ?_
    exact assignAll_bind_congr hsig₂ fun t₃ hsig₃ =>
      ih _ t₃ hsig₃ fun cls hmem => hclasses cls (List.mem_cons_of_mem _ hmem)

/-- The plan of a whole table. -/
def plan (table : SymbolTable) : SlotPlan × Int := table.signature.classPlan 0 table.classes

theorem layout_eq (t : SymbolTable)
    (hclasses : ∀ cls ∈ t.classes, ∃ info, t.kind? cls = some (.cls info)) :
    layout t = (do assignAll (plan t).1; pure (plan t).2 : SlotWriter Int) t := by
  unfold layout
  rw [bind_of_ok (get_eq_ok_iff.2 ⟨rfl, rfl⟩)]
  exact layoutClasses_eq t.signature t.classes 0 t rfl hclasses

/-- A layout that succeeds assigns slots and does nothing else. -/
private theorem assigned_of_layoutClasses {classes : List SymbolId} {statics next : Int}
    {t t' : SymbolTable} (hlayout : layoutClasses statics classes t = .ok next t') :
    Assigned t t' := by
  induction classes generalizing statics t with
  | nil =>
    obtain ⟨-, rfl⟩ := pure_eq_ok_iff.1 hlayout
    exact .refl t
  | cons cls rest ih =>
    obtain ⟨_, _, hget, hlayout⟩ := bind_eq_ok_iff.1 hlayout
    obtain ⟨rfl, rfl⟩ := get_eq_ok_iff.1 hget
    cases hinfo : t.classInfo? cls with
    | none =>
      rw [hinfo] at hlayout
      cases hlayout
    | some info =>
      rw [hinfo] at hlayout
      obtain ⟨counts, t₁, hfields, hlayout⟩ := bind_eq_ok_iff.1 hlayout
      rw [layoutFields_eq t.signature _ _ _ t rfl] at hfields
      obtain ⟨_, _, hplanned, hpure⟩ := bind_eq_ok_iff.1 hfields
      obtain ⟨rfl, rfl⟩ := pure_eq_ok_iff.1 hpure
      obtain ⟨_, t₂, hassign, hlayout⟩ := bind_eq_ok_iff.1 hlayout
      obtain ⟨_, t₃, hmethods, hlayout⟩ := bind_eq_ok_iff.1 hlayout
      rw [layoutMethods_eq t₂.signature _ t₂ rfl] at hmethods
      have hfields := assigned_of_assignAll hplanned
      have hmethods := assigned_of_assignAll hmethods
      exact ((hfields.trans (assigned_of_assign hassign)).trans hmethods).trans (ih hlayout)

/-- The layout changes no declaration and no slot that was assigned before. -/
theorem assigned_of_layout {t t' : SymbolTable} {statics : Int}
    (hlayout : layout t = .ok statics t') : Assigned t t' := by
  unfold layout at hlayout
  rw [bind_of_ok (get_eq_ok_iff.2 ⟨rfl, rfl⟩)] at hlayout
  exact assigned_of_layoutClasses hlayout

end SlotWriter

end SmallJava
