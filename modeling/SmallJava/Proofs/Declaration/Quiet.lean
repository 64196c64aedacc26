import SmallJava.Proofs.Analysis.Yields
import SmallJava.Proofs.Declaration.Accepted

/-! Declarations are entered without a report unless one of them ends the analysis. So what they
ensure when nothing is reported holds whenever the analysis gets past them. -/

namespace SmallJava

variable {μ ν α β : Type}

/-- Analysis that goes on has reported nothing. -/
def Check.Quiet (part : Check ν α) : Prop :=
  ∀ ⦃log log' : Diagnostic.Log⦄ ⦃a : α⦄, part log = .ok a log' → log' = log

namespace Check

theorem quiet_pure (a : α) : Quiet (pure a : Check ν α) := by
  rintro log _ _ ⟨⟩
  rfl

theorem quiet_abort (node : ν) (fatal : Diagnostic) : Quiet (abort node fatal : Check ν α) := nofun

theorem quiet_orAbort (node : ν) (result : Except Diagnostic α) : Quiet (orAbort node result) := by
  cases result with
  | ok a => exact quiet_pure a
  | error fatal => exact quiet_abort node fatal

theorem Quiet.bind {part : Check ν α} {f : α → Check ν β} (hpart : part.Quiet)
    (hf : ∀ a, (f a).Quiet) : Quiet (part >>= f) := by
  intro log log' b hrun
  obtain ⟨a, mid, hfirst, hrest⟩ := bind_eq_ok_iff.1 hrun
  exact (hf a hrest).trans (hpart hfirst)

theorem Quiet.within {part : Check μ α} (h : part.Quiet) (rebuild : μ → ν) :
    Quiet (within rebuild part) :=
  fun _ _ _ hrun => h (within_eq_ok_iff.1 hrun)

end Check

/-- Like `Check.Quiet`, with whatever names and declarations analysis starts. -/
def Walk.Quiet (part : Walk ν α) : Prop := ∀ b, Check.Quiet (part b)

namespace Walk

theorem quiet_pure (a : α) : Quiet (pure a : Walk ν α) := fun _ => Check.quiet_pure _

theorem quiet_get : Quiet (get : Walk ν Bindings) := fun _ => Check.quiet_pure _

theorem quiet_set (b : Bindings) : Quiet (set b : Walk ν PUnit) := fun _ => Check.quiet_pure _

theorem quiet_modify (f : Bindings → Bindings) : Quiet (modify f : Walk ν PUnit) :=
  fun _ => Check.quiet_pure _

theorem Quiet.bind {part : Walk ν α} {f : α → Walk ν β} (hpart : part.Quiet)
    (hf : ∀ a, (f a).Quiet) : Quiet (part >>= f) :=
  fun b => (hpart b).bind fun result => hf result.1 result.2

theorem quiet_lift {part : Check ν α} (h : part.Quiet) : Quiet (liftM part : Walk ν α) :=
  fun _ => h.bind fun _ => Check.quiet_pure _

theorem Quiet.within {part : Walk μ α} (h : part.Quiet) (rebuild : μ → ν) :
    Quiet (within rebuild part) :=
  fun b => (h b).within rebuild

theorem quiet_each {walk : ν → Walk ν ν} (h : ∀ node, (walk node).Quiet) :
    (nodes : List ν) → (each walk nodes).Quiet
  | [] => quiet_pure []
  | node :: rest => by
    refine ((h node).within _).bind fun _ => ?_
    refine ((quiet_each h rest).within _).bind fun _ => ?_
    exact quiet_pure _

/-- Resolving a type and declaring with it either ends the analysis or reports nothing. -/
theorem quiet_declareTyped (node : ν) (type : TypeExpr)
    (declare : SymbolTable → Ty → Except Diagnostic SymbolTable) :
    (declareTyped node type declare).Quiet := by
  refine quiet_get.bind fun _ => ?_
  refine (quiet_lift (Check.quiet_orAbort node _)).bind fun _ => ?_
  refine (quiet_lift (Check.quiet_orAbort node _)).bind fun _ => ?_
  refine (quiet_set _).bind fun _ => ?_
  exact quiet_pure _

/-- What a part ensures if it reports nothing is so whenever it goes on, if it never reports anything
and goes on. -/
theorem Ensures.yields {part : Walk ν α} {Q : Bindings → α → Bindings → Prop} (h : part.Ensures Q)
    (hquiet : part.Quiet) (b : Bindings) : part.Yields (· = b) (Q b) fun _ => True := by
  rintro _ rfl
  exact ⟨fun hrun => ((h _).ok hrun).2 (hquiet _ hrun), fun _ => trivial⟩

end Walk

open Walk

theorem FieldDef.declare_quiet (c : SymbolId) (className : String) (field : FieldDef) :
    (field.declare c className).Quiet :=
  (quiet_declareTyped field field.type _).bind fun _ => quiet_pure _

theorem ParamDef.declare_quiet (param : ParamDef) : param.declare.Quiet :=
  (quiet_declareTyped param param.type _).bind fun _ => quiet_pure _

theorem MethodDef.declare_quiet (c : SymbolId) (className : String) (method : MethodDef) :
    (method.declare c className).Quiet := by
  refine (quiet_declareTyped method method.returnType _).bind fun _ => ?_
  refine ((quiet_each ParamDef.declare_quiet method.params).within _).bind fun _ => ?_
  refine (quiet_modify _).bind fun _ => ?_
  exact quiet_pure _

theorem ClassDef.declare_quiet (cls : ClassDef) : cls.declare.Quiet := by
  refine quiet_get.bind fun b => ?_
  dsimp only
  cases b.scope.declareClass? cls.name b.table.nextId with
  | none => exact quiet_lift (Check.quiet_abort cls _)
  | some scope => exact (quiet_set _).bind fun _ => quiet_pure _

theorem ClassDef.declareMembers_quiet (cls : ClassDef) : cls.declareMembers.Quiet := by
  unfold declareMembers
  cases cls.binding with
  | none => exact quiet_pure cls
  | some c =>
    refine ((quiet_each (FieldDef.declare_quiet c cls.name) cls.fields).within _).bind fun _ => ?_
    refine ((quiet_each (MethodDef.declare_quiet c cls.name) cls.methods).within _).bind fun _ => ?_
    exact quiet_pure _

/-- Once all classes and their members are declared, the declarations are well formed, whatever is
wrong with the bodies. -/
theorem ClassDef.declareAll_wellFormed (classes : List ClassDef) :
    Yields (· = .initial) (each ClassDef.declare classes >>= each ClassDef.declareMembers)
      (fun _ b => b.table.WellFormed false) fun _ => True := by
  have hdisciplined : ∀ cls ∈ classes, cls.Disciplined false false :=
    fun _ _ => ⟨nofun, fun _ _ => ⟨nofun, nofun⟩⟩
  have hensures : (each ClassDef.declare classes >>= each ClassDef.declareMembers).Ensures
      fun before _ after => before.WellFormed false → after.table.WellFormed false := by
    refine (ClassDef.declareAll_ensures false false classes).bind fun named => ?_
    refine (ClassDef.declareAllMembers_ensures false false named).weaken ?_
    intro mid declared after hmembers before hnames hwf
    obtain ⟨hmid, -, hnamed⟩ := hnames hwf hdisciplined
    exact (hmembers hmid hnamed).1.table
  have hquiet := (quiet_each ClassDef.declare_quiet classes).bind fun named =>
    quiet_each ClassDef.declareMembers_quiet named
  exact (hensures.yields hquiet .initial).weaken (fun _ => id)
    (fun _ _ h => h (Bindings.initial_wellFormed false).1) fun _ => id

end SmallJava
