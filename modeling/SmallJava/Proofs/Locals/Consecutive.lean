import SmallJava.Proofs.Locals.Program

namespace SmallJava

/-- The local variables in scope have the offsets from the link data up to the next one, in the
    order of their declaration. -/
structure GenState.Consecutive (locals : List SymbolId) (state : GenState) : Prop where
  slots : locals.map state.table.slot? =
    (List.range locals.length).map fun i : Nat => some (linkDataSize + i)
  next : state.nextLocal = linkDataSize + locals.length

namespace GenState.Consecutive

variable {locals more : List SymbolId} {state : GenState}

instance : Decidable (state.Consecutive locals) :=
  decidable_of_iff _ ⟨fun h => ⟨h.1, h.2⟩, fun h => And.intro h.slots h.next⟩

/-- No two of the local variables share an offset. -/
theorem nodup (h : state.Consecutive locals) : (locals.map state.table.slot?).Nodup := by
  rw [h.slots]
  refine List.nodup_range.map fun i j heq => ?_
  have := Option.some.inj heq
  omega

end GenState.Consecutive

/-- Where code generation comes to, the variables in force have consecutive offsets. -/
theorem GenState.Reached.consecutive {state : GenState} {analysis : Analysis}
    {locals todo : List SymbolId} (h : state.Reached analysis locals todo) :
    state.Consecutive locals := by
  refine ⟨List.ext_getElem? fun i => ?_, h.next⟩
  rw [List.getElem?_map, List.getElem?_map]
  cases hget : locals[i]? with
  | none =>
    rw [List.getElem?_eq_none (by simpa using hget)]
    rfl
  | some x =>
    rw [List.getElem?_range (List.getElem?_eq_some_iff.1 hget).1]
    exact congrArg some (h.inside.locals i x hget)

/-- Faults where local variables in scope do not have consecutive offsets, one each, and where
    something other than a declaration moves the next offset. -/
def Watcher.strict (fault : InternalError) : Watcher where
  enter _ locals :=
    Gen.ensure (fun state => state.Consecutive locals ∧ (locals.map state.table.slot?).Nodup) fault
  leave stmt mark := Gen.ensure (fun state => stmt.isVarDecl = true ∨ state.nextLocal = mark) fault

/-- The strict watcher finds nothing wrong where everything is in its place. -/
theorem Watcher.strict_approves (fault : InternalError) (analysis : Analysis)
    (sites : List (List SymbolId × Stmt)) : (strict fault).Approves analysis sites where
  enter := by
    intro locals stmt _ s hs
    exact Gen.ensure_of ⟨hs.consecutive, hs.consecutive.nodup⟩
  leave := by
    intro locals stmt _ s hs
    refine Gen.ensure_of ?_
    cases hplain : stmt.isVarDecl with
    | true => exact .inl rfl
    | false =>
      right
      rw [hs.next, Stmt.binds_of_plain hplain, List.append_nil]

namespace Package

variable {package package' : Package} {analysis : Analysis} {log : Diagnostic.Log}

/-- Local variables in scope have consecutive offsets, one each: if updates of loops declare
    nothing, the strict watcher finds nothing wrong with an accepted program. Where the code of
    a statement starts, the variables that the same block or one around it declared before, and
    those of the loops around it, have the offsets from the link data up to the next one, in the
    order of their declaration. Where it ends, the next offset is what it was, unless the
    statement is a declaration. -/
theorem locals_consecutive (hcheck : package.check .any = (.ok (package', analysis), log))
    (hplain : package.plainUpdates = true) (options : Options) (fault : InternalError) :
    ∃ entry executable table, analysis.entry = some entry ∧
      package'.generate options analysis entry = (.ok executable, table) ∧
        package'.generateWatched (.strict fault) options analysis entry =
          (.ok executable, table) := by
  have htyped : package'.WellTyped false true analysis :=
    wellTyped_of_check hcheck (package.disciplined (fun _ => hplain) nofun)
  obtain ⟨method, -, -, entry, -, hentry⟩ := htyped.entry
  obtain ⟨executable, table, hgen⟩ := htyped.generates hentry options
  exact ⟨entry, executable, table, hentry, hgen,
    htyped.generateWatched (Watcher.strict_approves fault analysis _) hentry hgen⟩

/-- A program whose local variables come and go: some in a block of their own, some in the
    branches of a conditional whose outcome is known, some in a loop and its body. -/
def nesting : Package where
  classes := [{
    name := "Main"
    fields := []
    methods := [.main [
      .varDecl {} { type := .int {}, name := "a" } (.int {} 1),
      .block {} [
        .varDecl {} { type := .int {}, name := "b" } (.int {} 2),
        .println (.ref {} (.ofPath "b"))],
      .varDecl {} { type := .int {}, name := "c" } (.int {} 3),
      .ifElse {} (.binary {} .lt (.ref {} (.ofPath "c")) (.ref {} (.ofPath "a")))
        (.block {} [.varDecl {} { type := .int {}, name := "d" } (.ref {} (.ofPath "c"))])
        (some (.block {} [.varDecl {} { type := .int {}, name := "e" } (.ref {} (.ofPath "a"))])),
      .for {} (some (.varDecl {} { type := .int {}, name := "i" } (.int {} 0)))
        (some (.binary {} .lt (.ref {} (.ofPath "i")) (.ref {} (.ofPath "c"))))
        (some (.assign {} (.ofPath "i") (.binary {} .add (.ref {} (.ofPath "i")) (.int {} 1))))
        (.block {} [
          .varDecl {} { type := .int {}, name := "j" } (.ref {} (.ofPath "i")),
          .println (.ref {} (.ofPath "j"))]),
      .println (.ref {} (.ofPath "c"))]] }]

/-- In `nesting` the strict watcher finds nothing wrong. -/
theorem nesting_consecutive : ∃ package' analysis log entry executable table,
    nesting.check .any = (.ok (package', analysis), log) ∧ nesting.plainUpdates = true ∧
      analysis.entry = some entry ∧
        package'.generate {} analysis entry = (.ok executable, table) ∧
          package'.generateWatched (.strict (.missingBinding 0)) {} analysis entry =
            (.ok executable, table) := by
  have hrun : (match nesting.check .any with
      | (.ok _, _) => true
      | _ => false) = true := by
    decide +kernel
  split at hrun
  next package' analysis log hcheck =>
    obtain ⟨entry, executable, table, hentry, hgen, hwatched⟩ :=
      locals_consecutive hcheck (by decide) {} (.missingBinding 0)
    exact ⟨_, _, _, _, _, _, hcheck, by decide, hentry, hgen, hwatched⟩
  next => cases hrun

end Package

end SmallJava
