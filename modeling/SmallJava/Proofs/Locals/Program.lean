import SmallJava.Proofs.Locals.Reached
import SmallJava.Proofs.Progress.Program

namespace SmallJava

/-- Code generation is between two methods: the layout and what comes before the methods is done,
    and what is still to come has no place. -/
structure GenState.Between (s : GenState) (analysis : Analysis) (todo : List SymbolId) : Prop where
  inside : s.Inside analysis []
  free : ∀ x ∈ todo, s.table.slot? x = none

namespace GenState.Between

variable {s s' : GenState} {analysis : Analysis} {todo : List SymbolId} {x : SymbolId}

theorem extend (h : s.Between analysis todo) (hext : s.Extends s') : s'.Between analysis todo := by
  refine ⟨h.inside.extend hext, fun x hmem => ?_⟩
  rw [hext.quiet.table]
  exact h.free x hmem

/-- Between two methods the next one to place may be placed. -/
theorem setSlot (h : s.Between analysis (x :: todo)) (hnew : x ∉ todo) {slot : Int}
    {table : SymbolTable} (hset : s.table.setSlot x slot = .ok table) :
    { s with table }.Between analysis todo := by
  refine ⟨h.inside.setSlot hset, fun y hmem => ?_⟩
  have hne : y ≠ x := fun heq => hnew (heq ▸ hmem)
  dsimp only
  rw [SymbolTable.slot?_setSlot_of_ne hset hne]
  exact h.free y (List.mem_cons_of_mem x hmem)

end GenState.Between

theorem GenState.Reached.between {s : GenState} {analysis : Analysis} {locals todo : List SymbolId}
    (h : s.Reached analysis locals todo) : s.Between analysis todo := by
  have hinside : s.Inside analysis ([] ++ locals) := h.inside
  exact ⟨hinside.of_append, h.free⟩

namespace Gen

variable {α : Type} {analysis : Analysis} {todo : List SymbolId}

theorem appends_between {code : Gen α}
    (hcode : ∀ table : SymbolTable, table.signature = analysis.table.signature → Appends table code) :
    Agrees (·.Between analysis todo) code code (·.Between analysis todo) :=
  agrees_of fun s _ _ hs hrun => hs.extend (hcode s.table hs.inside.signature rfl hrun)

theorem setSlot_between {x : SymbolId} {slot : Int} (hnew : x ∉ todo) :
    Agrees (·.Between analysis (x :: todo)) (setSlot x slot) (setSlot x slot)
      (·.Between analysis todo) := by
  refine agrees_of fun s s' u hs hrun => ?_
  obtain ⟨table, htable, rfl⟩ := setSlot_eq_ok_iff.1 hrun
  exact hs.setSlot hnew htable

theorem appends_push {table : SymbolTable} {count : Int} : Appends table (emit (·.push count)) := by
  refine appends_emit (fun asm => ?_) fun asm => ?_
  · unfold Assembler.push
    split <;> rfl
  · unfold Assembler.push
    split
    · simp
    · exact Nat.le_refl _

theorem appends_callLater {table : SymbolTable} {op : Opcode} {m : SymbolId}
    (hmethod : table.isMethod m = true) : Appends table (emit (·.callLater op m)) := by
  refine (runs_callLater hmethod).appends fun s s' u hrun => ?_
  obtain rfl := emit_eq_ok_iff.1 hrun
  exact ⟨Quiet.asm s _, (Emits.callLater s op m).noted⟩

/-- After the prologue all methods are still to be placed. -/
theorem prologue_between {statics : Int} {entry : SymbolId} {info : MethodInfo}
    (hentry : analysis.table.kind? entry = some (.method info)) :
    Agrees (·.Between analysis todo) (prologue statics entry) (prologue statics entry)
      (·.Between analysis todo) := by
  refine appends_between fun table hsig => ?_
  have hmethod : table.isMethod entry = true := by
    rw [← SymbolTable.signature_isMethod, hsig]
    exact analysis.table.signature.isMethod_iff.2 ⟨info, hentry⟩
  refine appends_setLine.bind fun _ => ?_
  refine appends_push.bind fun _ => ?_
  refine appends_instruction.bind fun _ => ?_
  refine appends_instruction.bind fun _ => ?_
  refine (appends_callLater hmethod).bind fun _ => ?_
  exact appends_instruction

/-- The body of `println` places it, and no other method. -/
theorem printlnBody_between {println : SymbolId} (hnew : println ∉ todo) :
    Agrees (·.Between analysis (println :: todo)) (printlnBody println) (printlnBody println)
      (·.Between analysis todo) := by
  refine (appends_between fun _ _ => appends_here).bind fun start => ?_
  refine (setSlot_between hnew).bind fun _ => ?_
  refine appends_between fun _ _ => ?_
  refine appends_instruction.bind fun _ => ?_
  refine appends_instruction.bind fun _ => ?_
  exact appends_instruction

end Gen

open Gen

namespace MethodDef

variable {analysis : Analysis} {watcher : Watcher} {strict : Bool} {todo : List SymbolId}

/-- The code of a method reaches all its statements, each with its own variables. -/
theorem WellTyped.agrees_gen {method : MethodDef} {m : SymbolId} {info : MethodInfo}
    (h : method.WellTyped analysis.table.signature m info) (hwf : analysis.table.WellFormed strict)
    (hplain : Stmt.allPlainUpdates method.body = true) (hnodup : (method.placed ++ todo).Nodup)
    (hwatcher : watcher.Approves analysis method.stmtSites) (options : Options) :
    Agrees (·.Between analysis (method.placed ++ todo)) (method.gen options)
      (method.genWatched watcher options) (·.Between analysis todo) := by
  have hΓ : Context.Ready ⟨analysis.table.signature, info.owner, info.modifiers.isStatic,
      analysis.table.signature.typeOf m, info.params⟩ analysis := fun _ _ h' => h'.ready hwf h.kind
  have hplaced : method.placed ++ todo = m :: (Stmt.allDeclared method.body ++ todo) := by
    simp [placed, h.bound]
  rw [hplaced, List.nodup_cons] at hnodup
  obtain ⟨more, hbody⟩ : ∃ more, Agrees (·.Reached analysis [] (Stmt.allDeclared method.body ++ todo))
      (Stmt.genAll (method.site options) method.body)
      (Stmt.genAllWatched watcher (method.site options) [] method.body)
      (·.Reached analysis ([] ++ more) todo) :=
    Stmt.ListWellTyped.agrees_genAll hΓ h.body hplain hnodup.2 hwatcher (method.site options)
  have hstart : Agrees (·.Between analysis (Stmt.allDeclared method.body ++ todo))
      (modify fun state => { state with nextLocal := linkDataSize, known := .empty } : Gen Unit)
      (modify fun state => { state with nextLocal := linkDataSize, known := .empty })
      (·.Reached analysis [] (Stmt.allDeclared method.body ++ todo)) := by
    refine agrees_of fun s s' u hs hrun => ?_
    obtain rfl := modify_eq_ok_iff.1 hrun
    exact ⟨hs.inside.retrack _ (by simp), rfl, hs.free⟩
  have hend : ∀ table, Appends table (if method.returnType.isVoid && !Stmt.allReturn method.body then
      emit (·.returnWith 0 (method.site options).argCount) else pure () : Gen Unit) := by
    intro table
    split
    · exact appends_instruction
    · exact appends_pure
  unfold gen genWatched
  rw [hplaced]
  refine Agrees.afterBound h.bound ?_
  refine (appends_between fun _ _ => appends_setLine).bind fun _ => ?_
  refine (appends_between fun _ _ => appends_here).bind fun start => ?_
  refine (setSlot_between hnodup.1).bind fun _ => ?_
  refine hstart.bind fun _ => ?_
  refine hbody.bind fun _ => ?_
  exact agrees_of fun s s' u hs hrun => hs.between.extend (hend s.table rfl hrun)

/-- The methods are placed one after the other, and a watcher that approves of their bodies makes no
    difference. -/
theorem agrees_genAll {methods : List MethodDef} (hwf : analysis.table.WellFormed strict)
    (htyped : ∀ method ∈ methods, ∃ m info, method.WellTyped analysis.table.signature m info)
    (hplain : ∀ method ∈ methods, Stmt.allPlainUpdates method.body = true)
    (hnodup : (methods.flatMap placed ++ todo).Nodup)
    (hwatcher : watcher.Approves analysis (methods.flatMap stmtSites)) (options : Options) :
    Agrees (·.Between analysis (methods.flatMap placed ++ todo)) (genAll options methods)
      (genAllWatched watcher options methods) (·.Between analysis todo) := by
  induction methods with
  | nil => exact appends_between fun _ _ => appends_pure
  | cons method rest ih =>
    obtain ⟨m, info, hmethod⟩ := htyped method List.mem_cons_self
    rw [List.flatMap_cons] at hwatcher
    rw [List.flatMap_cons, List.append_assoc] at hnodup ⊢
    have hfirst := hmethod.agrees_gen hwf (hplain method List.mem_cons_self) hnodup
      (hwatcher.weaken (List.subset_append_left _ _)) options
    have hrest := ih (fun other hmem => htyped other (List.mem_cons_of_mem _ hmem))
      (fun other hmem => hplain other (List.mem_cons_of_mem _ hmem)) (List.nodup_append'.1 hnodup).2.1
      (hwatcher.weaken (List.subset_append_right _ _))
    exact hfirst.bind fun _ => hrest

end MethodDef

namespace Package

variable {package package' : Package} {analysis : Analysis} {log : Diagnostic.Log}

namespace WellTyped

variable {strict : Bool} {watcher : Watcher}

/-- After the layout, code generation is before the first method. -/
theorem layout_between (h : package.WellTyped strict true analysis) :
    Agrees (· = { table := analysis.table }) layout layout
      (·.Between analysis (analysis.builtins.println :: package.methods.flatMap MethodDef.placed)) := by
  obtain ⟨statics, laidOut, hlayout, hlaidOut⟩ := h.table.layout
  refine agrees_of fun s s' found hs hrun => ?_
  subst hs
  obtain ⟨table, htable, rfl⟩ := layout_eq_ok_iff.1 hrun
  obtain ⟨rfl, rfl⟩ := EStateM.Result.ok.inj (hlayout.symm.trans htable)
  exact ⟨h.table.inside hlayout linkDataSize (by simp), h.free_of_laidOut hlaidOut⟩

/-- The code of a well-typed program reaches all its statements, each with its own variables. -/
theorem agrees_gen (h : package.WellTyped strict true analysis)
    (hwatcher : watcher.Approves analysis (package.methods.flatMap (·.stmtSites))) {entry : SymbolId}
    {info : MethodInfo} (hentry : analysis.table.kind? entry = some (.method info))
    (options : Options) :
    Agrees (· = { table := analysis.table }) (package.gen options analysis.builtins entry)
      (package.genWatched watcher options analysis.builtins entry) fun _ => True := by
  have hnodup : (package.methods.flatMap MethodDef.placed ++ []).Nodup := by
    rw [List.append_nil]
    exact h.nodup_placed
  have hmethods := MethodDef.agrees_genAll h.table h.methods (h.plainUpdates rfl) hnodup hwatcher options
  rw [List.append_nil] at hmethods
  refine h.layout_between.bind fun statics => ?_
  refine (prologue_between hentry).bind fun _ => ?_
  refine (printlnBody_between h.println_notMem_placed).bind fun _ => ?_
  refine hmethods.bind fun _ => ?_
  exact agrees_of fun _ _ _ _ _ => trivial

/-- A watcher that finds nothing wrong where everything is in its place does not change what is
    generated for a well-typed program. -/
theorem generateWatched (h : package.WellTyped strict true analysis)
    (hwatcher : watcher.Approves analysis (package.methods.flatMap (·.stmtSites)))
    {options : Options} {entry : SymbolId} {executable : Executable} {table : SymbolTable}
    (hentry : analysis.entry = some entry)
    (hgen : package.generate options analysis entry = (.ok executable, table)) :
    package.generateWatched watcher options analysis entry = (.ok executable, table) := by
  obtain ⟨method, hmem, -, m, hbound, hm⟩ := h.entry
  obtain rfl : entry = m := Option.some.inj (hentry.symm.trans hm)
  obtain ⟨m', info, htyped⟩ := h.methods method hmem
  obtain rfl := Option.some.inj (htyped.bound.symm.trans hbound)
  unfold Package.generate at hgen
  split at hgen
  next found state hrun =>
    obtain ⟨hwatched, -⟩ := h.agrees_gen hwatcher htyped.kind options rfl hrun
    unfold Package.generateWatched
    rw [hwatched]
    exact hgen
  next => cases hgen

end WellTyped

open Classical in
/-- Faults where code generation comes to a statement that does not stand in the program with these
    local variables in force, or where something is not in its place there. -/
noncomputable def placing (package : Package) (analysis : Analysis) (fault : InternalError) :
    Watcher where
  enter stmt locals := Gen.ensure (fun s =>
    (∃ method ∈ package.methods, (locals, stmt) ∈ method.stmtSites) ∧
      s.Reached analysis locals stmt.declared) fault
  leave _ _ := pure ()

open Classical in
/-- The watcher of places finds nothing wrong with any statement of the program. -/
theorem placing_approves (package : Package) (analysis : Analysis) (fault : InternalError) :
    (package.placing analysis fault).Approves analysis (package.methods.flatMap (·.stmtSites)) where
  enter := by
    intro locals stmt hmem s hs
    exact Gen.ensure_of ⟨List.mem_flatMap.1 hmem, hs⟩
  leave := by
    intro locals stmt _ s _
    rfl

/-- Everything is in its place wherever code is generated for a statement: if updates of loops
    declare nothing, code generation comes to statements of an accepted program only, each with the
    local variables in force that are so by the text, which follow the link data in their order,
    while those that it declares have no places yet. That is all that is asked of a state for the
    code of the statement, and of the expressions in it, to be right. -/
theorem statements_reached (hcheck : package.check .any = (.ok (package', analysis), log))
    (hplain : package.plainUpdates = true) (options : Options) (fault : InternalError) :
    ∃ entry executable table, analysis.entry = some entry ∧
      package'.generate options analysis entry = (.ok executable, table) ∧
        package'.generateWatched (package'.placing analysis fault) options analysis entry =
          (.ok executable, table) := by
  have htyped : package'.WellTyped false true analysis :=
    wellTyped_of_check hcheck (package.disciplined (fun _ => hplain) nofun)
  obtain ⟨method, -, -, entry, -, hentry⟩ := htyped.entry
  obtain ⟨executable, table, hgen⟩ := htyped.generates hentry options
  exact ⟨entry, executable, table, hentry, hgen,
    htyped.generateWatched (package'.placing_approves analysis fault) hentry hgen⟩

end Package

end SmallJava
