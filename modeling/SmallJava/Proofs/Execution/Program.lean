import SmallJava.Proofs.Declaration.Confined
import SmallJava.Proofs.Execution.Loaded
import SmallJava.Proofs.Execution.Runs
import SmallJava.Proofs.Scoping.Program

namespace SmallJava

open Machine Exec

/-- The memory of a program that starts: its entry method is called with an empty array. -/
def Store.initial : Store where
  heap := [.number 0]

/-- The store that a program starts with is typed: every static field is zero, and so is the one
    word of the heap. -/
theorem Store.Typed.initial (sig : Signature) : Store.initial.Typed sig [.length 0] where
  length := rfl
  cells := by
    intro i cell hget
    cases i with
    | zero =>
      obtain rfl := Option.some.inj hget
      exact ⟨_, rfl, rfl⟩
    | succ i => simp at hget
  statics := fun _ _ _ _ _ => .null

/-- What a program does, if its loops do not test their conditions more often than that, and its
    calls are not nested deeper. -/
def Package.evaluate (package : Package) (analysis : Analysis) (entry : SymbolId) (limit : Nat) :
    EStateM.Result Stop Store (Option Datum) :=
  package.invoke analysis (limit + 1) (limit + 1) entry .null [.heap 1] .initial

/-- The entry method takes an array and needs no object. -/
structure Analysis.Enters (analysis : Analysis) (entry : SymbolId) (info : MethodInfo)
    (param : SymbolId) (elem : Ty) : Prop where
  found : analysis.entry = some entry
  kind : analysis.table.signature.kind? entry = some (.method info)
  static : info.modifiers.isStatic = true
  params : info.params = [param]
  type : analysis.table.signature.typeOf param = .array elem

/-- What is written `String[]` is a type of arrays. -/
theorem TypeExpr.array_of_isStringArray {type : TypeExpr} {scope : Scope} {builtins : Builtins}
    {ty : Ty} (h : type.isStringArray = true) (hresolve : type.resolve scope builtins = .ok ty) :
    ∃ elem, ty = .array elem := by
  cases type with
  | array span elem =>
    rw [resolve] at hresolve
    cases helem : elem.resolve scope builtins with
    | ok elem' =>
      rw [helem] at hresolve
      exact ⟨elem', (Except.ok.inj hresolve).symm⟩
    | error fatal =>
      rw [helem] at hresolve
      cases hresolve
  | _ => cases h

/-- An accepted program can be started. -/
theorem Package.enters_of_check {package package' : Package} {analysis : Analysis}
    {log : Diagnostic.Log} (hcheck : package.check .any = (.ok (package', analysis), log))
    (htyped : package'.WellTyped true true analysis) :
    ∃ entry info param elem, analysis.Enters entry info param elem := by
  obtain ⟨hanalysis, rfl⟩ := analyze_of_check hcheck
  obtain ⟨b, htable, -, hdescribes⟩ := analyze_describes hanalysis
  obtain ⟨method, hmem, hsignature, entry, hbound, hentry⟩ := htyped.entry
  obtain ⟨cls, hcls, hmethod⟩ := List.mem_flatMap.1 hmem
  obtain ⟨c, hdeclared⟩ := hdescribes.declared cls (List.mem_append_right _ hcls)
  obtain ⟨m, params, hm⟩ := hdeclared.methods method hmethod
  obtain rfl := Option.some.inj (hm.bound.symm.trans hbound)
  have hkind := hm.kind
  rw [htable] at hkind
  unfold MethodDef.hasEntrySignature at hsignature
  obtain ⟨hsignature, harray⟩ := Bool.and_eq_true_iff.1 hsignature
  obtain ⟨hsignature, -⟩ := Bool.and_eq_true_iff.1 hsignature
  obtain ⟨-, hstatic⟩ := Bool.and_eq_true_iff.1 hsignature
  have hparams := hm.params
  generalize hwritten : method.params = written at harray hparams
  cases hparams with
  | nil => cases harray
  | @cons param x _ _ hparam hrest =>
    cases hrest with
    | cons => cases harray
    | nil =>
      obtain ⟨elem, helem⟩ := TypeExpr.array_of_isStringArray harray hparam.type
      rw [htable] at helem
      exact ⟨_, _, x, elem, hentry, hkind, hstatic, rfl, helem⟩

/-- The entry method, which is called by no other method. -/
def Activation.outermost (statics : List SymbolId) (param : SymbolId) (returnTo : Address) :
    Activation where
  statics
  below := []
  params := [param]
  link := ⟨0, .null, returnTo⟩
  ob := .null

/-- An instruction of a program is executed where it stands. -/
theorem Image.Holds.step_at {im : Image} {a : Nat} {instr : Instruction} (h : im.Holds a instr)
    {m : Machine} (hcp : m.cp = a) : step im.fetch m = execute instr { m with cp := a + 1 } := by
  subst hcp
  exact step_of_fetch h

namespace Package.Loaded

variable {package : Package} {analysis : Analysis} {im : Image} {options : Options}
  {entry param : SymbolId} {statics : List SymbolId} {info : MethodInfo} {elem : Ty} {limit a b : Nat}

/-- The start of the program makes room for the static fields. -/
theorem reaches_reserved (h : package.Loaded analysis im options entry statics a b) :
    ∃ t, Reaches im.fetch 0 {} t { stack := List.replicate statics.length .null, cp := a } := by
  have hreserve := h.code.reserve
  generalize hcount : (statics.length : Int) = count at hreserve
  cases hreserve with
  | some _ hpush =>
    refine ⟨1, .one ((hpush.step_at rfl).trans ?_)⟩
    rw [← hcount]
    rfl
  | none hnone =>
    obtain hnil : statics = [] := List.eq_nil_of_length_eq_zero (by omega)
    rw [hnil]
    exact ⟨0, .refl⟩

variable (param) in
/-- It calls the entry method with an empty array. -/
theorem reaches_entry (h : package.Loaded analysis im options entry statics a b) {s : Nat}
    (hslot : im.slot? entry = some (s : Int)) :
    ∃ t, Reaches im.fetch 0 {} t ((Activation.outermost statics param (a + 3)).machine []
      (.ofArgs [param] [.heap 1]) .initial [] s) := by
  obtain ⟨start, hstart, hcall⟩ := h.code.entry
  obtain rfl := Option.some.inj (hstart.symm.trans hslot)
  obtain ⟨t, hreserved⟩ := h.reaches_reserved
  have hlength : step im.fetch { stack := List.replicate statics.length .null, cp := a } =
      .ok true { stack := List.replicate statics.length .null ++ [.number 0], cp := a + 1 } :=
    h.code.length.step_at rfl
  have harray : step im.fetch
        { stack := List.replicate statics.length .null ++ [.number 0], cp := a + 1 } =
      .ok true { stack := List.replicate statics.length .null ++ [.heap 1], heap := [.number 0]
                 cp := a + 2 } := by
    have hnew : primitive .newarr
          { stack := List.replicate statics.length .null ++ [.number 0], cp := a + 2 } =
        .ok () { stack := List.replicate statics.length .null ++ [.heap 1], heap := [.number 0]
                 cp := a + 2 } := by
      unfold primitive
      exact bind_of_ok (pop_concat (m := { cp := a + 2 }) _ _)
    exact (h.code.array.step_at rfl).trans ((execute_primitive _).trans (bind_of_ok hnew))
  have hcalled : step im.fetch { stack := List.replicate statics.length .null ++ [.heap 1]
                                 heap := [.number 0], cp := a + 2 } =
      .ok true { stack := List.replicate statics.length .null ++ [.heap 1] ++
                   [.number 0, .null, .number (a + 3 : Nat)]
                 heap := [.number 0], cp := s, lb := statics.length + 1 } := by
    refine (hcall.step_at rfl).trans ?_
    change (do Machine.call s .null; pure true : Action Bool) _ = _
    refine bind_of_ok (a := ()) ((jump_natCast s).trans ?_)
    simp [Int.add_assoc]
  have hframe : (Activation.outermost statics param (a + 3)).machine [] (.ofArgs [param] [.heap 1])
      .initial [] s =
        { stack := List.replicate statics.length .null ++ [.heap 1] ++
            [.number 0, .null, .number (a + 3 : Nat)]
          heap := [.number 0], cp := s, lb := statics.length + 1 } := by
    simp [Activation.machine, Activation.words, Activation.outermost, Activation.lb, Link.words,
      Valuation.ofArgs, Store.initial, List.map_const']
  rw [hframe]
  exact ⟨_, hreserved.trans (.step hlength (.step harray (.one hcalled)))⟩

/-- The machine does what the program does, and halts at its end. -/
theorem follows_evaluate (h : package.Loaded analysis im options entry statics a b)
    (henters : analysis.Enters entry info param elem) :
    Follows im.fetch limit 0 {} (package.evaluate analysis entry limit) (Halts im.fetch) := by
  have hkind : im.signature.kind? entry = some (.method info) := h.sig ▸ henters.kind
  obtain ⟨s, hslot⟩ := h.exists_slot hkind
  obtain ⟨t, hreach⟩ := h.reaches_entry param hslot
  have harg : (Datum.heap 1).HasTy im.signature [.length 0] (im.signature.typeOf param) := by
    rw [h.sig, henters.type]
    exact .inr ⟨1, rfl, 0, 0, rfl, rfl, by simp⟩
  have hanswers : im.Answers statics (package.scene analysis (limit + 1) limit .null) limit t :=
    h.answers (by omega) (by omega)
  have hfollows : Follows im.fetch limit t ((Activation.outermost statics param (a + 3)).machine []
      (.ofArgs [param] [.heap 1]) .initial [] s) (package.evaluate analysis entry limit)
      fun result S' _ m' => m' = (Activation.outermost statics param (a + 3)).resumed S' result.toList :=
    h.follows_invoke hkind hslot rfl henters.params.symm (by simp [henters.static])
      (.cons harg .nil) (.initial _) (by omega) hanswers
  refine .after hreach (hfollows.mono ?_)
  rintro result S' t' _ - rfl
  exact ⟨_, h.code.halt.step_at rfl, rfl⟩

end Package.Loaded

namespace Package

variable {package : Package} {analysis : Analysis} {entry param : SymbolId} {info : MethodInfo}
  {elem : Ty}

/-- A well-typed program makes sense. -/
theorem WellTyped.evaluate_ne_stuck (h : package.WellTyped true true analysis)
    (henters : analysis.Enters entry info param elem) (limit : Nat) (S : Store) :
    package.evaluate analysis entry limit ≠ .error .stuck S := by
  have harg : (Datum.heap 1).HasTy analysis.table.signature [.length 0]
      (analysis.table.signature.typeOf param) := by
    rw [henters.type]
    exact .inr ⟨1, rfl, 0, 0, rfl, rfl, by simp⟩
  have hparams : analysis.table.signature.paramsOf entry = [param] := by
    rw [SymbolTable.paramsOf_eq henters.kind, henters.params]
  have hsound := h.invokes (limit + 1) (limit + 1) .null [.length 0] entry info .null [.heap 1]
    henters.kind (by simp [henters.static]) (by rw [hparams]; exact .cons harg .nil)
  exact (hsound .initial (.initial _)).1 S

/-- Folding constants changes nothing that can be observed: if `void` is only what methods return
    and updates of loops declare nothing, then an accepted program prints the same values in the
    same order and ends in the same way, or not at all, whether constants are folded or not. This
    is as long as both programs are short enough for their addresses to be operands. -/
theorem folding_sound {package package' : Package} {analysis : Analysis} {log : Diagnostic.Log}
    (hcheck : package.check .any = (.ok (package', analysis), log))
    (hvoid : package.avoidsVoid = true) (hplain : package.plainUpdates = true) :
    ∃ entry folded unfolded table table', analysis.entry = some entry ∧
      package'.generate { foldConstants := true } analysis entry = (.ok folded, table) ∧
        package'.generate { foldConstants := false } analysis entry = (.ok unfolded, table') ∧
          (folded.code.size < 0x80000000 → unfolded.code.size < 0x80000000 →
            SameRun folded.code.get? unfolded.code.get?) := by
  have htyped : package'.WellTyped true true analysis :=
    wellTyped_of_check hcheck (package.disciplined (fun _ => hplain) fun _ => hvoid)
  obtain ⟨entry, info, param, elem, henters⟩ := enters_of_check hcheck htyped
  obtain ⟨folded, table, hgen⟩ := htyped.generates henters.found { foldConstants := true }
  obtain ⟨unfolded, table', hgen'⟩ := htyped.generates henters.found { foldConstants := false }
  refine ⟨entry, folded, unfolded, table, table', henters.found, hgen, hgen', fun hfits hfits' => ?_⟩
  obtain ⟨a, hloaded⟩ := htyped.loaded hgen hfits
  obtain ⟨a', hloaded'⟩ := htyped.loaded hgen' hfits'
  exact .of_shows (htyped.evaluate_ne_stuck henters)
    (fun limit => shows_of_follows (hloaded.follows_evaluate henters))
    fun limit => shows_of_follows (hloaded'.follows_evaluate henters)

/-- A program with a loop, a branch that is never taken and a division that faults: it prints 2, 3
    and 1, and then divides by zero. -/
def dividing : Package where
  classes := [{
    name := "Main"
    fields := []
    methods := [
      .main [
        .varDecl {} { type := .int {}, name := "n" } (.int {} 3),
        .while {} (.binary {} .lt (.int {} 1) (.ref {} (.ofPath "n"))) (.block {} [
          .println (.binary {} .div (.int {} 6) (.ref {} (.ofPath "n"))),
          .assign {} (.ofPath "n") (.binary {} .sub (.ref {} (.ofPath "n")) (.int {} 1))]),
        .ifElse {} (.binary {} .lt (.int {} 1) (.int {} 2))
          (.println (.ref {} (.ofPath "n")))
          (some (.println (.binary {} .div (.int {} 7) (.int {} 0)))),
        .println (.binary {} .mod (.int {} 4) (.binary {} .sub (.int {} 2) (.int {} 2)))]] }]

/-- Folding makes the program shorter. The division by zero stays. -/
theorem folding_sound_of_dividing : ∃ package' analysis log entry folded unfolded table table',
    dividing.check .any = (.ok (package', analysis), log) ∧ dividing.avoidsVoid = true ∧
      dividing.plainUpdates = true ∧ analysis.entry = some entry ∧
        package'.generate { foldConstants := true } analysis entry = (.ok folded, table) ∧
          package'.generate { foldConstants := false } analysis entry = (.ok unfolded, table') ∧
            folded.code.size < unfolded.code.size ∧
              Ends folded.code.get? {} (.faulted .divideByZero) [.number 2, .number 3, .number 1] ∧
                SameRun folded.code.get? unfolded.code.get? := by
  have hrun : ((dividing.check .any).1.toOption.any fun checked => checked.2.entry.any fun entry =>
      (checked.1.generate { foldConstants := true } checked.2 entry).1.toOption.any fun folded =>
        (checked.1.generate { foldConstants := false } checked.2 entry).1.toOption.any fun unfolded =>
          decide ((folded.code.size < unfolded.code.size ∧ unfolded.code.size < 100) ∧
            (after folded.code.get? 100 {}).1 = .faulted .divideByZero ∧
              (after folded.code.get? 100 {}).2.output = [.number 2, .number 3, .number 1])) = true := by
    decide +kernel
  obtain ⟨⟨package', analysis⟩, log, hcheck, hrun⟩ := exists_ok_of_any hrun
  obtain ⟨entry, hentry, hrun⟩ := (Option.any_eq_true ..).1 hrun
  obtain ⟨folded, table, hgen, hrun⟩ := exists_ok_of_any hrun
  obtain ⟨unfolded, table', hgen', hrun⟩ := exists_ok_of_any hrun
  obtain ⟨⟨hshorter, hsize⟩, hstatus, hprinted⟩ := of_decide_eq_true hrun
  obtain ⟨entry', folded', unfolded', t, t', hentry', hgen₁, hgen₂, hsame⟩ :=
    folding_sound hcheck (by decide) (by decide)
  obtain rfl : entry' = entry := Option.some.inj (hentry'.symm.trans hentry)
  obtain rfl : folded' = folded := Except.ok.inj (congrArg Prod.fst (hgen₁.symm.trans hgen))
  obtain rfl : unfolded' = unfolded := Except.ok.inj (congrArg Prod.fst (hgen₂.symm.trans hgen'))
  exact ⟨_, _, _, _, _, _, _, _, hcheck, by decide, by decide, hentry, hgen, hgen', hshorter,
    ⟨nofun, 100, _, Prod.ext hstatus rfl, hprinted⟩, hsame (by omega) (by omega)⟩

end Package

end SmallJava
