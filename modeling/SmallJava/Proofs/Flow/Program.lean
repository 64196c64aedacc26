import SmallJava.Proofs.Codegen.PackageEmission
import SmallJava.Proofs.Declaration.Accepted
import SmallJava.Proofs.Flow.Control
import SmallJava.Syntax.Build

namespace SmallJava

/-- Where the code of a method starts. -/
def SymbolTable.startOf (table : SymbolTable) (method : MethodDef) : Option Int :=
  method.binding.bind table.slot?

/-- Where the code of a method ends, given the methods after it. -/
def Executable.endBefore (executable : Executable) (table : SymbolTable) :
    List MethodDef → Option Int
  | [] => some executable.code.size
  | next :: _ => table.startOf next

namespace MethodDef

variable {im : Image} {options : Options}

/-- The code of one method stands between the code of those before and of those after it. -/
theorem ListCode.split {before after : List MethodDef} {method : MethodDef} {a c : Nat}
    (h : MethodDef.ListCode im options (before ++ method :: after) a c) :
    ∃ s e, method.Code im options s e ∧ MethodDef.ListCode im options after e c := by
  induction before generalizing a with
  | nil =>
    cases h with
    | cons hmethod hrest => exact ⟨_, _, hmethod, hrest⟩
  | cons first rest ih =>
    cases h with
    | cons _ hrest => exact ih hrest

/-- Control never leaves the code of a method that returns a value if it is to. -/
theorem Code.control {method : MethodDef} {a b : Nat} (h : method.Code im options a b)
    (hfits : b < 0x80000000)
    (hreturns : method.returnType.isVoid = false → Stmt.allReturn method.body = true) :
    im.control.Stays a b Flow.Nowhere a () := by
  cases h with
  | falls _ _ hbody _ _ hreturn =>
    exact (hbody.control (by omega)).stays hreturn.returns
  | returns _ _ hbody hvoid =>
    refine hbody.control_of_returns hfits ?_
    cases hkind : method.returnType.isVoid with
    | true => exact hvoid hkind
    | false => exact hreturns hkind

/-- A method starts where its code does, as far as this fits an operand. -/
theorem Code.slot_toOperand {method : MethodDef} {a b : Nat} (h : method.Code im options a b)
    {m : SymbolId} {info : MethodInfo} (htyped : method.WellTyped im.signature m info) :
    im.slot? m = some (Address.toOperand a) := by
  have hslot : ∀ x, method.binding = some x →
      ((im.signature.kind? x).isSome → im.slot? x = some (Address.toOperand a)) →
        im.slot? m = some (Address.toOperand a) := by
    intro x hbound hslot
    obtain rfl := Option.some.inj (hbound.symm.trans htyped.bound)
    exact hslot (by simp [htyped.kind])
  cases h with
  | falls hbound hplaced => exact hslot _ hbound hplaced
  | returns hbound hplaced => exact hslot _ hbound hplaced

theorem Code.slot {method : MethodDef} {a b : Nat} (h : method.Code im options a b)
    (hfits : a < 0x80000000) {m : SymbolId} {info : MethodInfo}
    (htyped : method.WellTyped im.signature m info) : im.slot? m = some (a : Int) := by
  rw [h.slot_toOperand htyped, Address.toOperand_of_lt hfits]

/-- The code of a method stands where the slot of the method says. -/
theorem Code.startOf {executable : Executable} {table : SymbolTable} {method : MethodDef}
    {a b : Nat} (h : method.Code (executable.image table) options a b) (hfits : a < 0x80000000)
    {m : SymbolId} {info : MethodInfo} {sig : Signature} (hsig : table.signature = sig)
    (htyped : method.WellTyped sig m info) : table.startOf method = some (a : Int) := by
  subst hsig
  rw [SymbolTable.startOf, htyped.bound, Option.bind_some]
  exact h.slot hfits htyped

end MethodDef

namespace Package

/-- Control stays in a method until it returns: whatever it reaches from the start of the
    method lies before the next method, or before the end of the program. The code is to
    be short enough for its addresses to be operands. -/
theorem control_stays_in_method {package package' : Package} {analysis : Analysis}
    {log : Diagnostic.Log} {options : Options} {entry : SymbolId} {executable : Executable}
    {table : SymbolTable} {before after : List MethodDef} {method : MethodDef}
    (hcheck : package.check .any = (.ok (package', analysis), log))
    (hgen : package'.generate options analysis entry = (.ok executable, table))
    (hfits : executable.code.size < 0x80000000)
    (hmethod : package'.methods = before ++ method :: after) :
    ∃ s e, table.startOf method = some s ∧ executable.endBefore table after = some e ∧
      ∀ a, executable.code.Reaches s a → s ≤ a ∧ a < e := by
  have htyped : package'.WellTyped false false analysis :=
    wellTyped_of_check hcheck (package.disciplined nofun nofun)
  obtain ⟨statics, a, laidOut, -, hassigned, -, hcode⟩ := generate_code hgen
  have hlist := hcode.methods
  rw [show package'.classes.flatMap (·.methods) = _ from hmethod] at hlist
  obtain ⟨s, e, hcode, hrest⟩ := hlist.split
  have hle := hcode.le
  have hle' := hrest.le
  obtain ⟨m, info, hwell⟩ := htyped.methods method (by rw [hmethod]; simp)
  have hstays := hcode.control (by omega) hwell.returns
  refine ⟨s, e, hcode.startOf (by omega) hassigned.signature hwell, ?_, fun b hreach => ?_⟩
  · cases hrest with
    | nil => rfl
    | @cons next _ _ _ _ hnext _ =>
      obtain ⟨m', info', hwell'⟩ := htyped.methods next (by rw [hmethod]; simp)
      exact hnext.startOf (by omega) hassigned.signature hwell'
  · exact hreach.bounds rfl hstays

/-- A program with a loop, a call of what comes later, and a method with two ends:
    `main` prints `pick(i < 2)` for `i` from 0 to 2, and `pick(b)` is 1 or 2. -/
def picking : Package where
  classes := [{
    name := "Main"
    fields := []
    methods := [
      .main [
        .varDecl {} { type := .int {}, name := "i" } (.int {} 0),
        .while {} (.binary {} .lt (.ref {} (.ofPath "i")) (.int {} 3)) (.block {} [
          .println (.call {} (.ofPath "pick")
            [.binary {} .lt (.ref {} (.ofPath "i")) (.int {} 2)]),
          .assign {} (.ofPath "i") (.binary {} .add (.ref {} (.ofPath "i")) (.int {} 1))])],
      { modifiers := { isStatic := true }
        returnType := .int {}
        name := "pick"
        params := [{ type := .boolean {}, name := "b" }]
        body := [.ifElse {} (.ref {} (.ofPath "b"))
          (.return {} (some (.int {} 1))) (some (.return {} (some (.int {} 2))))] }] }]

/-- With either option, `picking` is accepted and its code is short. -/
theorem picking_compiles (options : Options) :
    ∃ package' analysis log entry executable table main pick,
      picking.check .any = (.ok (package', analysis), log) ∧
        package'.generate options analysis entry = (.ok executable, table) ∧
          executable.code.size < 100 ∧ package'.methods = [main, pick] := by
  have hrun : ∀ folding : Bool, ((picking.check .any).1.toOption.any fun checked =>
      checked.2.entry.any fun entry =>
        (checked.1.generate ⟨folding⟩ checked.2 entry).1.toOption.any fun executable =>
          decide (executable.code.size < 100 ∧ checked.1.methods.length = 2)) = true := by
    decide +kernel
  obtain ⟨⟨package', analysis⟩, log, hcheck, hrun⟩ := exists_ok_of_any (hrun options.foldConstants)
  obtain ⟨entry, -, hrun⟩ := (Option.any_eq_true ..).1 hrun
  obtain ⟨executable, table, hgen, hrun⟩ := exists_ok_of_any hrun
  obtain ⟨hsize, hmethods⟩ := of_decide_eq_true hrun
  obtain ⟨main, pick, hmethods⟩ := List.length_eq_two.1 hmethods
  exact ⟨_, _, _, _, _, _, main, pick, hcheck, hgen, hsize, hmethods⟩

/-- Both branches of `pick` return, so the jump between them is never reached. -/
theorem control_stays_in_pick :
    ∃ package' analysis log entry executable table main pick,
      picking.check .any = (.ok (package', analysis), log) ∧
        package'.generate {} analysis entry = (.ok executable, table) ∧
          executable.code.size < 0x80000000 ∧ package'.methods = [main] ++ pick :: [] ∧
            ∃ s : Int, table.startOf pick = some s ∧
              ∀ a, executable.code.Reaches s a → s ≤ a ∧ a < executable.code.size := by
  obtain ⟨package', analysis, log, entry, executable, table, main, pick, hcheck, hgen, hsize,
    hmethods⟩ := picking_compiles {}
  have hfits : executable.code.size < 0x80000000 := by omega
  have hmethods : package'.methods = [main] ++ pick :: [] := hmethods
  obtain ⟨s, e, hstart, hend, hreach⟩ := control_stays_in_method hcheck hgen hfits hmethods
  obtain rfl := Option.some.inj hend
  exact ⟨_, _, _, _, _, _, _, _, hcheck, hgen, hfits, hmethods, s, hstart, hreach⟩

end Package

end SmallJava
