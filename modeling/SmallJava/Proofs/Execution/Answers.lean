import SmallJava.Proofs.Execution.Methods
import SmallJava.Proofs.Frame.Program

namespace SmallJava

open Machine Exec

/-- The machine comes to where an evaluation ended with what that yielded. -/
theorem Follows.produced {α : Type} {fetch : Address → Option Instruction} {deadline t : Nat}
    {m : Machine} {S : Store} {x : Exec α} {P : α → Store → Nat → Machine → Prop}
    (h : Follows fetch deadline t m (x S) P) :
    Follows fetch deadline t m (x S) fun a S' t' m' => P a S' t' m' ∧ x S = .ok a S' := by
  cases hrun : x S with
  | ok a S' =>
    rw [hrun] at h
    obtain ⟨t', m', hreach, hpost⟩ := h
    exact ⟨t', m', hreach, hpost, rfl⟩
  | error stop S' =>
    rw [hrun] at h
    cases stop <;> exact h

namespace MethodDef

variable {im : Image} {options : Options} {method : MethodDef} {m : SymbolId} {info : MethodInfo}
  {act : Activation} {sc : Scene} {deadline start t a b : Nat} {W : HeapTyping}
  {S : Store} {args : List Datum}

/-- From its start, the code of a method does what the method does, and returns. -/
theorem Code.follows (h : method.Code im options a b) (hfits : b < 0x80000000)
    (htyped : method.WellTyped im.signature m info)
    (hplain : Stmt.allPlainUpdates method.body = true)
    (hframe : im.Frame info.params [] linkDataSize)
    (hhost : act.Hosts im sc (bodyContext im.signature m info) deadline start)
    (hready : sc.Ready (bodyContext im.signature m info) (info.params ++ []) start W
      (.ofArgs info.params args) S t) :
    Follows im.fetch deadline t (act.machine [] (.ofArgs info.params args) S [] a)
      (method.exec sc info.params args S)
      fun result S' _ m' => m' = act.resumed S' result.toList := by
  have hargs : (method.site options).argCount = act.params.length := by
    rw [hhost.params]
    exact htyped.arity.symm
  have hbody : Stmt.ListWellTyped (bodyContext im.signature m info) [] method.body := htyped.body
  cases h with
  | falls _ _ hcode _ _ hreturn =>
    obtain ⟨more, -, hruns⟩ := hcode.runs hhost hargs (by omega) hbody hplain hframe
    refine (hruns W _ S t hready Context.knows_empty).bind fun leave S' t' m' _ hlands => ?_
    cases leave with
    | next env =>
      obtain ⟨rfl, -⟩ := hlands
      have hcount : method.params.length = act.params.length := hargs
      rw [hcount] at hreturn
      have hreach : Reaches im.fetch t' (act.machine [] env S' (more.map env ++ []) _) (t' + 1)
          (act.resumed S' []) := hreturn.reach_return
      rw [List.append_nil] at hreach
      rw [Activation.machine_release]
      exact .after hreach (.pure rfl)
    | «return» result => exact .pure hlands
  | returns _ _ hcode hreturns =>
    obtain ⟨more, -, hruns⟩ := hcode.runs hhost hargs hfits hbody hplain hframe
    refine (hruns W _ S t hready Context.knows_empty).produced.bind fun leave S' t' m' _ hlands => ?_
    obtain ⟨hlands, hrun⟩ := hlands
    cases leave with
    | next env =>
      -- a method whose end is reached is one that returns at its end
      have hvoid := Ty.isVoid_iff.2 (htyped.typeOf_of_next hrun)
      rw [htyped.isVoid] at hvoid
      obtain ⟨result, hresult⟩ := Stmt.execAll_returns method.body (hreturns hvoid) hrun
      cases hresult
    | «return» result => exact .pure hlands

end MethodDef

/-- A program in memory: the code of its methods, where it stores its static fields, the fields
    of its objects and the variables of its methods. -/
structure Package.Loaded (package : Package) (analysis : Analysis) (im : Image) (options : Options)
    (entry : SymbolId) (statics : List SymbolId) (a b : Nat) : Prop where
  typed : package.WellTyped true true analysis
  sig : im.signature = analysis.table.signature
  code : package.Code im options analysis.builtins entry statics.length a b
  fits : b < 0x80000000
  stores : im.Stores statics
  frames : ∀ m info, im.signature.kind? m = some (.method info) → im.Frame info.params [] linkDataSize

namespace Package.Loaded

variable {package : Package} {analysis : Analysis} {im : Image} {options : Options}
  {entry m : SymbolId} {statics : List SymbolId} {info : MethodInfo} {act : Activation}
  {rounds depth deadline start t a b : Nat} {W : HeapTyping} {S : Store} {this : Datum}
  {args : List Datum}

/-- Where the code of a method is. -/
theorem find_method (h : package.Loaded analysis im options entry statics a b)
    (hkind : im.signature.kind? m = some (.method info)) (hown : m ≠ analysis.builtins.println) :
    ∃ method, package.methods.find? (·.binding = some m) = some method ∧
      method.WellTyped im.signature m info ∧ Stmt.allPlainUpdates method.body = true ∧
        ∃ s e : Nat, method.Code im options s e ∧ e < 0x80000000 ∧ im.slot? m = some (s : Int) := by
  obtain ⟨method, hmem, hfind, htyped⟩ := h.typed.find?_method (h.sig ▸ hkind) hown
  obtain ⟨before, after, hsplit⟩ := List.append_of_mem hmem
  have hmethods := h.code.methods
  rw [show package.classes.flatMap (·.methods) = _ from hsplit] at hmethods
  obtain ⟨s, e, hbody, hrest⟩ := hmethods.split
  have hfits := h.fits
  have hle := hrest.le
  rw [← h.sig] at htyped
  have hlt := hbody.lt (by omega) htyped
  exact ⟨method, hfind, htyped, h.typed.plainUpdates rfl method hmem, s, e, hbody, by omega,
    hbody.slot (by omega) htyped⟩

/-- The code of `println` prints the argument. -/
theorem follows_println (h : package.Loaded analysis im options entry statics a b)
    (hparams : act.params = [analysis.builtins.printlnArg]) {d : Datum} :
    Follows im.fetch deadline t (act.machine [] (.ofArgs act.params [d]) S [] (a + 4 : Nat))
      ((do [d].forM print; pure none : Exec (Option Datum)) S)
      fun result S' _ m' => m' = act.resumed S' result.toList := by
  have hget : (act.words [] (.ofArgs act.params [d]) S)[act.statics.length + act.below.length + 0]? =
      some d := by
    rw [Activation.words_param (x := analysis.builtins.printlnArg) (by rw [hparams]; rfl), hparams,
      Valuation.ofArgs, Function.update_self]
  have hplace : (act.lb : Int) + (-1) = (act.statics.length + act.below.length + 0 : Nat) := by
    rw [Activation.lb, hparams, List.length_singleton]
    omega
  refine .after (h.code.printlnArg.reach_load (fun m hlb => ?_) hplace hget) ?_
  · rw [← hlb]
    rfl
  have hput : step im.fetch (act.machine [] (.ofArgs act.params [d]) S ([] ++ [d]) (a + 4 + 1 : Nat)) =
      .ok true (act.machine [] (.ofArgs act.params [d]) { S with output := S.output ++ [d] } []
        (a + 6 : Nat)) := by
    refine (h.code.printlnPut.step_primitive (y := modify fun m => { m with output := m.output ++ [d] })
      (bind_of_ok Activation.pop_machine)).trans rfl
  have hreturn := h.code.printlnReturn
  have hcount : (1 : Int) = act.params.length := by
    rw [hparams]
    rfl
  rw [hcount] at hreturn
  have hreach : ∀ {S t}, Reaches im.fetch t (act.machine [] (.ofArgs act.params [d]) S ([] ++ [])
      (a + 6 : Nat)) (t + 1) (act.resumed S []) := hreturn.reach_return
  exact .after (.one hput) (.after hreach (.pure rfl))

/-- The method that prints starts four words after the code of the program does. -/
theorem slot_println (h : package.Loaded analysis im options entry statics a b)
    (hkind : im.signature.kind? analysis.builtins.println = some (.method info)) :
    im.slot? analysis.builtins.println = some ((a + 4 : Nat) : Int) := by
  have hfits := h.fits
  have hle := h.code.methods.le
  rw [← Address.toOperand_of_lt (by omega)]
  exact h.code.printlnSlot (by simp [hkind])

theorem exists_slot (h : package.Loaded analysis im options entry statics a b)
    (hkind : im.signature.kind? m = some (.method info)) : ∃ s : Nat, im.slot? m = some (s : Int) := by
  by_cases hown : m = analysis.builtins.println
  · exact ⟨_, hown ▸ h.slot_println (hown ▸ hkind)⟩
  · obtain ⟨method, -, -, -, s, e, -, -, hslot⟩ := h.find_method hkind hown
    exact ⟨s, hslot⟩

/-- A call does what the scene says, if so do the calls that it makes in turn. -/
theorem follows_invoke (h : package.Loaded analysis im options entry statics a b) {s : Nat}
    (hkind : im.signature.kind? m = some (.method info)) (hslot : im.slot? m = some (s : Int))
    (hstatics : act.statics = statics) (hparams : act.params = info.params)
    (hthis : info.modifiers.isStatic = false → act.ob = this ∧ this ≠ .null ∧
      this.HasTy im.signature W (.object info.owner))
    (hargs : List.Forall₂ (fun d p => d.HasTy im.signature W (im.signature.typeOf p)) args act.params)
    (hS : S.Typed im.signature W) (hrounds : deadline < t + rounds)
    (hanswers : im.Answers statics (package.scene analysis rounds depth this) deadline t) :
    Follows im.fetch deadline t (act.machine [] (.ofArgs act.params args) S [] s)
      (package.invoke analysis rounds (depth + 1) m this args S)
      fun result S' _ m' => m' = act.resumed S' result.toList := by
  have hkind' : analysis.table.signature.kind? m = some (.method info) := h.sig ▸ hkind
  rw [Package.invoke]
  by_cases hown : m = analysis.builtins.println
  · subst hown
    obtain ⟨owner, howner⟩ := h.typed.println.kind
    obtain rfl : info = _ := by simpa using hkind'.symm.trans howner
    obtain rfl : a + 4 = s := by
      have heq := Option.some.inj ((h.slot_println hkind).symm.trans hslot)
      omega
    obtain ⟨d, rfl⟩ : ∃ d, args = [d] := List.length_eq_one_iff.1 (by
      rw [hargs.length_eq, hparams]
      rfl)
    rw [if_pos rfl]
    exact h.follows_println hparams
  · obtain ⟨method, hfind, htyped, hplain, s', e, hbody, hlt, hslot'⟩ := h.find_method hkind hown
    obtain rfl : s' = s := by
      have heq := Option.some.inj (hslot'.symm.trans hslot)
      omega
    have hhost : act.Hosts im (package.scene analysis rounds depth this)
        (MethodDef.bodyContext im.signature m info) deadline t :=
      ⟨rfl, hparams, fun hinstance => (hthis hinstance).1, hstatics ▸ h.stores, hstatics ▸ hanswers,
        hrounds⟩
    have hscene : (package.scene analysis rounds depth this).Typed
        (MethodDef.bodyContext im.signature m info) W := by
      rw [h.sig] at hthis ⊢
      exact h.typed.scene_typed (h.typed.invokes rounds depth this) fun hinstance => (hthis hinstance).2
    rw [hparams] at hargs ⊢
    have henv : Valuation.Typed im.signature W (info.params ++ []) (.ofArgs info.params args) := by
      rw [List.append_nil]
      exact Valuation.typed_ofArgs hargs
    rw [if_neg hown, hfind]
    dsimp only
    rw [SymbolTable.paramsOf_eq hkind']
    exact hbody.follows hlt htyped hplain (h.frames m info hkind) hhost
      ⟨hscene, henv, hS, Nat.le_refl t⟩

/-- Calls do what the scene says, since each call takes time: those that would be nested too deep
    come after the deadline. -/
theorem answers (h : package.Loaded analysis im options entry statics a b)
    (hdepth : deadline ≤ start + depth) (hrounds : deadline < start + rounds) :
    im.Answers statics (package.scene analysis rounds depth this) deadline start := by
  induction depth generalizing start this with
  | zero =>
    intro m info d hkind hslot
    obtain ⟨s, hslot'⟩ := h.exists_slot hkind
    exact ⟨s, Option.some.inj (hslot.symm.trans hslot'),
      fun act W S t this args _ _ _ _ _ hlater => ⟨t, _, .refl, by omega, rfl⟩⟩
  | succ depth ih =>
    intro m info d hkind hslot
    obtain ⟨s, hslot'⟩ := h.exists_slot hkind
    refine ⟨s, Option.some.inj (hslot.symm.trans hslot'),
      fun act W S t this args hstatics hparams hthis hargs hS hlater => ?_⟩
    have hown : act.params = info.params :=
      hparams.trans (Signature.paramsOf_of_method _ hkind)
    have hanswers : im.Answers statics (package.scene analysis rounds depth this) deadline t :=
      ih (by omega) (by omega)
    exact h.follows_invoke hkind hslot' hstatics hown hthis hargs hS (by omega) hanswers

end Package.Loaded

end SmallJava
