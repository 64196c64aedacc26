import Mathlib.Data.List.Perm.Basic
import SmallJava.Proofs.Codegen.PackageEmission
import SmallJava.Proofs.Declaration.Accepted
import SmallJava.Proofs.Progress.Stmt
import SmallJava.Proofs.Storage
import SmallJava.Syntax.Build

namespace SmallJava

/-- Noted calls can be completed if they stand in the code and their targets have places. -/
theorem Code.exists_relocate {table : SymbolTable} {notes : List Relocation} {code : Code}
    (hnotes : ∀ note ∈ notes, note.address < code.size ∧ ∃ d, table.slot? note.target = some d) :
    ∃ code', code.relocate table notes = (.ok (), code') := by
  induction notes generalizing code with
  | nil => exact ⟨code, rfl⟩
  | cons note rest ih =>
    obtain ⟨hlt, d, hslot⟩ := hnotes note List.mem_cons_self
    have hpatch : code.patch? note.address d = some (code.patch note.address d) := by
      unfold patch patch?
      rw [if_pos hlt]
      rfl
    have hrest : ∀ note' ∈ rest, note'.address < (code.patch note.address d).size ∧
        ∃ d, table.slot? note'.target = some d := fun note' hmem => by
      rw [size_patch]
      exact hnotes note' (List.mem_cons_of_mem _ hmem)
    obtain ⟨code', hrest⟩ := ih hrest
    refine ⟨code', ?_⟩
    unfold relocate
    rw [hslot, Option.bind_some, hpatch]
    exact hrest

namespace Gen

variable {α : Type} {table : SymbolTable} {sig : Signature} {vars : List SymbolId}

/-- More variables may have places than the action uses. -/
theorem Places.frame {code : Gen α} {vars' declared big : List SymbolId}
    (hcode : Places sig vars vars' declared code) (hsub : vars ⊆ big) :
    Places sig big big declared code := by
  intro s hready hfree
  obtain ⟨a, s', hrun, hready', hsame, hnotes⟩ := hcode s (hready.weaken hsub) hfree
  refine ⟨a, s', hrun, ⟨hready'.signature, fun x hmem => ?_, hready'.fields, hready'.classes⟩,
    hsame, hnotes⟩
  obtain ⟨d, hslot⟩ := hready.vars x hmem
  refine ⟨d, ?_⟩
  rw [hsame x fun hdeclared => ?_, hslot]
  rw [hfree x hdeclared] at hslot
  cases hslot

/-- A call may be noted for any declared method. -/
theorem runs_callLater {op : Opcode} {m : SymbolId} (hmethod : table.isMethod m = true) :
    Runs table (emit (·.callLater op m)) := by
  rintro s rfl
  refine ⟨(), _, rfl, rfl, fun note hmem => ?_⟩
  obtain hmem | hmem := List.mem_append.1 hmem
  · exact .inl hmem
  · obtain rfl := List.mem_singleton.1 hmem
    exact .inr hmethod

theorem runs_prologue {statics : Int} {entry : SymbolId} (hentry : table.isMethod entry = true) :
    Runs table (prologue statics entry) := by
  refine Runs.bind (runs_emit (f := (·.setLine 0)) fun _ => rfl) fun _ => ?_
  refine Runs.bind (runs_emit fun asm => by unfold Assembler.push; split <;> rfl) fun _ => ?_
  refine (runs_emit fun _ => by rfl).bind fun _ => ?_
  refine (runs_emit fun _ => by rfl).bind fun _ => ?_
  refine (runs_callLater hentry).bind fun _ => ?_
  exact runs_emit fun _ => by rfl

theorem places_printlnBody {println : SymbolId} (hin : (sig.kind? println).isSome) :
    Places sig vars (vars ++ [println]) [println] (printlnBody println) := by
  refine (places_setSlot hin fun state => state.asm.here.toOperand).andThen fun _ => ?_
  refine places_of_runs fun _ _ => ?_
  refine (runs_emit fun _ => by rfl).bind fun _ => ?_
  refine (runs_emit fun _ => by rfl).bind fun _ => ?_
  exact runs_emit fun _ => by rfl

end Gen

open Gen

namespace MethodDef

variable {sig : Signature} {vars : List SymbolId}

/-- The symbols that get their places with the code of a method. -/
def placed (method : MethodDef) : List SymbolId :=
  method.binding.toList ++ Stmt.allDeclared method.body

/-- Code for a well-typed method can be generated. -/
theorem WellTyped.places_gen {method : MethodDef} {m : SymbolId} {info : MethodInfo}
    (h : method.WellTyped sig m info) (hplain : Stmt.allPlainUpdates method.body = true)
    (hnodup : (Stmt.allDeclared method.body).Nodup) (hown : m ∉ Stmt.allDeclared method.body)
    (hparams : info.params ⊆ vars) (options : Options) :
    Places sig vars (vars ++ [m]) method.placed (method.gen options) := by
  obtain ⟨more, hbody⟩ := h.body.places_genAll hplain hnodup (method.site options)
  have hsub : info.params ++ [] ⊆ vars ++ [m] := by
    simpa using List.subset_append_of_subset_left [m] hparams
  have hbody := hbody.frame hsub
  have hcode : Places sig vars (vars ++ [m]) ([m] ++ Stmt.allDeclared method.body) (do
      emit (·.setLine method.span.line)
      do setSlot m (← get).asm.here.toOperand
      modify fun state => { state with nextLocal := linkDataSize, known := .empty }
      Stmt.genAll (method.site options) method.body
      if method.returnType.isVoid && !Stmt.allReturn method.body then
        emit (·.returnWith 0 (method.site options).argCount) : Gen Unit) := by
    refine Places.afterLine ?_
    refine (places_setSlot (by rw [h.kind]; rfl) fun state => state.asm.here.toOperand).bind
      (fun _ => ?_) fun x hmem hmem' => hown (List.mem_singleton.1 hmem' ▸ hmem)
    refine (places_of_runs fun _ _ => runs_modify fun _ => ⟨by rfl, by rfl⟩).after fun _ => ?_
    refine hbody.andThen fun _ => ?_
    refine places_of_runs fun _ _ => ?_
    split
    · exact runs_emit (f := (·.returnWith 0 (method.site options).argCount)) fun _ => rfl
    · exact runs_pure
  unfold placed
  rw [h.bound]
  unfold MethodDef.gen
  rw [h.bound]
  exact hcode

/-- Code for methods can be generated in any order. -/
theorem places_genAll {options : Options} : {methods : List MethodDef} → {vars : List SymbolId} →
    (∀ method ∈ methods, (∃ m info, method.WellTyped sig m info ∧ info.params ⊆ vars) ∧
      Stmt.allPlainUpdates method.body = true) →
    (methods.flatMap placed).Nodup →
      Places sig vars (vars ++ methods.filterMap (·.binding)) (methods.flatMap placed)
        (genAll options methods)
  | [], vars => fun _ _ => by simpa [genAll] using places_pure
  | method :: rest, vars => by
    intro htyped hnodup
    obtain ⟨⟨m, info, hmethod, hparams⟩, hplain⟩ := htyped method List.mem_cons_self
    rw [List.flatMap_cons] at hnodup ⊢
    obtain ⟨hnodup, hnodup', hdisjoint⟩ := List.nodup_append'.1 hnodup
    rw [List.filterMap_cons_some hmethod.bound, ← List.singleton_append, ← List.append_assoc]
    have hplaced : method.placed = m :: Stmt.allDeclared method.body := by
      simp [placed, hmethod.bound]
    rw [hplaced, List.nodup_cons] at hnodup
    refine (hmethod.places_gen hplain hnodup.2 hnodup.1 hparams options).bind (fun _ => ?_)
      fun x hmem hmem' => hdisjoint hmem' hmem
    refine places_genAll (fun other hmem => ?_) hnodup'
    obtain ⟨⟨m', info', hother, hparams'⟩, hplain'⟩ := htyped other (List.mem_cons_of_mem _ hmem)
    exact ⟨⟨m', info', hother, List.subset_append_of_subset_left _ hparams'⟩, hplain'⟩

end MethodDef

namespace Package

variable {strict : Bool} {package : Package} {analysis : Analysis}

namespace WellTyped

/-- After the layout of a well-typed program, what stands in classes has its place. -/
theorem ready_of_laidOut (package : Package) {laidOut : SymbolTable} {statics : Int}
    (hlaidOut : analysis.table.LaidOut laidOut statics) :
    laidOut.Ready analysis.table.signature
      ((package.methods.filterMap (·.binding)).flatMap analysis.table.paramsOf) where
  signature := hlaidOut.assigned.signature
  vars := by
    intro p hmem
    obtain ⟨m, -, hmem⟩ := List.mem_flatMap.1 hmem
    obtain ⟨info, hkind, hparam⟩ := SymbolTable.method_of_mem_paramsOf hmem
    obtain ⟨i, hget⟩ := List.mem_iff_getElem?.1 hparam
    exact ⟨_, hlaidOut.params m info hkind i p hget⟩
  fields := fun x cls modifiers hkind => by
    obtain ⟨d, hslot, -⟩ := hlaidOut.fields x cls modifiers hkind
    exact ⟨d, hslot⟩
  classes := fun x info hkind => Option.isSome_iff_exists.1 (hlaidOut.classes x info hkind)

/-- The methods of a well-typed program and all its local variables are different. -/
theorem nodup_placed (h : package.WellTyped strict true analysis) :
    (package.methods.flatMap MethodDef.placed).Nodup := by
  have hids : (package.methods.flatMap fun method => method.binding.toList).Nodup := by
    rw [← List.filterMap_eq_flatMap_toList]
    exact h.ids.imp fun {m m'} hlt heq => Nat.ne_of_lt hlt (congrArg SymbolId.index heq)
  refine (List.flatMap_append_perm package.methods _ _).nodup (hids.append h.locals ?_)
  intro x hid hlocal
  obtain ⟨method, hmem, hbound⟩ := List.mem_flatMap.1 hid
  obtain ⟨m, info, htyped⟩ := h.methods method hmem
  obtain rfl : x = m := by simpa [htyped.bound] using hbound
  obtain ⟨other, hmem', hdeclared⟩ := List.mem_flatMap.1 hlocal
  obtain ⟨m', info', htyped'⟩ := h.methods other hmem'
  have hkind := htyped'.body.kind_of_allDeclared x hdeclared
  rw [htyped.kind] at hkind
  cases hkind

/-- The method that prints is none of the program. -/
theorem println_notMem_placed (h : package.WellTyped strict true analysis) :
    analysis.builtins.println ∉ package.methods.flatMap MethodDef.placed := by
  intro hplaced
  obtain ⟨owner, hprintln⟩ := h.println.kind
  obtain ⟨method, hmem, hx⟩ := List.mem_flatMap.1 hplaced
  obtain ⟨m, info, htyped⟩ := h.methods method hmem
  obtain hx | hx := List.mem_append.1 hx
  · exact h.own _ (List.mem_filterMap.2 ⟨method, hmem, by simpa using hx⟩) rfl
  · have hkind := htyped.body.kind_of_allDeclared _ hx
    rw [SymbolTable.signature_kind?, hprintln] at hkind
    cases hkind

/-- The layout gives no places to what gets its place with the code. -/
theorem free_of_laidOut (h : package.WellTyped strict true analysis) {laidOut : SymbolTable}
    {statics : Int} (hlaidOut : analysis.table.LaidOut laidOut statics) :
    ∀ x ∈ analysis.builtins.println :: package.methods.flatMap MethodDef.placed,
      laidOut.slot? x = none := by
  obtain ⟨owner, hprintln⟩ := h.println.kind
  intro x hmem
  obtain rfl | hmem := List.mem_cons.1 hmem
  · exact hlaidOut.methods _ _ hprintln
  · obtain ⟨other, hmem, hx⟩ := List.mem_flatMap.1 hmem
    obtain ⟨m, info, htyped⟩ := h.methods other hmem
    obtain hx | hx := List.mem_append.1 hx
    · obtain rfl : x = m := by simpa [htyped.bound] using hx
      exact hlaidOut.methods x info htyped.kind
    · exact hlaidOut.locals x (htyped.body.kind_of_allDeclared x hx)

/-- After the layout, the code of a well-typed program can be generated, apart from the
    completion of its calls. -/
theorem places_code (h : package.WellTyped strict true analysis) {entry : SymbolId}
    {info : MethodInfo} (hentry : analysis.table.kind? entry = some (.method info))
    (options : Options) (statics : Int) :
    Places analysis.table.signature
      ((package.methods.filterMap (·.binding)).flatMap analysis.table.paramsOf)
      ((package.methods.filterMap (·.binding)).flatMap analysis.table.paramsOf ++
        [analysis.builtins.println] ++ package.methods.filterMap (·.binding))
      ([analysis.builtins.println] ++ package.methods.flatMap MethodDef.placed) (do
        prologue statics entry
        printlnBody analysis.builtins.println
        MethodDef.genAll options package.methods : Gen Unit) := by
  obtain ⟨owner, hprintln⟩ := h.println.kind
  refine (places_of_runs fun table hready => runs_prologue ?_).after fun _ => ?_
  · rw [hready.isMethod_eq]
    exact analysis.table.signature.isMethod_iff.2 ⟨info, hentry⟩
  refine (places_printlnBody (by rw [SymbolTable.signature_kind?, hprintln]; rfl)).bind
    (fun _ => MethodDef.places_genAll (fun method hmem => ⟨?_, h.plainUpdates rfl method hmem⟩)
      h.nodup_placed) ?_
  · obtain ⟨m, info, htyped⟩ := h.methods method hmem
    refine ⟨m, info, htyped, fun p hparam => List.mem_append_left _ (List.mem_flatMap.2 ⟨m, ?_, ?_⟩)⟩
    · exact List.mem_filterMap.2 ⟨method, hmem, htyped.bound⟩
    · rwa [← SymbolTable.signature_paramsOf, SymbolTable.paramsOf_eq htyped.kind]
  · intro x hplaced hmem
    obtain rfl := List.mem_singleton.1 hmem
    exact h.println_notMem_placed hplaced

/-- Code for a well-typed program can be generated. -/
theorem generates (h : package.WellTyped strict true analysis) {entry : SymbolId}
    (hentry : analysis.entry = some entry) (options : Options) :
    ∃ executable table, package.generate options analysis entry = (.ok executable, table) := by
  obtain ⟨statics, laidOut, hlayout, hlaidOut⟩ := h.table.layout
  have hready := ready_of_laidOut package hlaidOut
  obtain ⟨method, hmem, -, m, hbound, hm⟩ := h.entry
  obtain rfl : entry = m := Option.some.inj (hentry.symm.trans hm)
  obtain ⟨m', info, htyped⟩ := h.methods method hmem
  obtain rfl := Option.some.inj (htyped.bound.symm.trans hbound)
  obtain ⟨_, s, hrun, hready', -, hnotes⟩ :=
    h.places_code htyped.kind options statics { table := laidOut } hready (h.free_of_laidOut hlaidOut)
  obtain ⟨_, s₁, hprologue, hrun⟩ := bind_eq_ok_iff.1 hrun
  obtain ⟨_, s₂, hbody, hmethods⟩ := bind_eq_ok_iff.1 hrun
  have hnoted : s.asm.Noted := (MethodDef.genAll_emits hmethods).noted
    ((printlnBody_emits hbody).2.noted ((prologue_emits hprologue).noted ⟨by simp, .nil⟩))
  have hids : ∀ x ∈ package.methods.filterMap (·.binding), ∃ d, s.table.slot? x = some d :=
    fun x hmem => hready'.vars x (List.mem_append_right _ hmem)
  obtain ⟨code, hrelocate⟩ : ∃ code, s.asm.code.relocate s.table s.asm.relocations =
      (.ok (), code) := by
    refine Code.exists_relocate fun note hmem => ⟨hnoted.below _ _ hmem, ?_⟩
    have hmethod : laidOut.isMethod note.target = true := by simpa using hnotes note hmem
    rw [hready.isMethod_eq] at hmethod
    obtain ⟨info, hkind⟩ := analysis.table.signature.isMethod_iff.1 hmethod
    obtain hprintln | hmem := h.complete note.target info hkind
    · exact hready'.vars _ (List.mem_append_left _ (List.mem_append_right _ (by simp [hprintln])))
    · exact hids _ hmem
  obtain ⟨d, hslot⟩ := hids m' (List.mem_filterMap.2 ⟨method, hmem, hbound⟩)
  have hfinish : s.asm.finish s.table = .ok code := by
    unfold Assembler.finish
    rw [hrelocate]
  have hgen : package.gen options analysis.builtins m' { table := analysis.table } =
      .ok ⟨code, Address.ofSlot d, s.asm.relocations⟩ s :=
    bind_eq_ok_iff.2 ⟨_, _, Gen.layout_eq_ok_iff.2 ⟨_, hlayout, rfl⟩,
      bind_eq_ok_iff.2 ⟨_, _, hprologue, bind_eq_ok_iff.2 ⟨_, _, hbody,
        bind_eq_ok_iff.2 ⟨_, _, hmethods, bind_eq_ok_iff.2 ⟨_, _,
          expectSlot_eq_ok_iff.2 ⟨hslot, rfl⟩, bind_eq_ok_iff.2 ⟨_, _, get_eq_ok_iff.2 ⟨rfl, rfl⟩,
            bind_eq_ok_iff.2 ⟨_, _, ofExcept_eq_ok_iff.2 ⟨hfinish, rfl⟩, rfl⟩⟩⟩⟩⟩⟩⟩
  refine ⟨⟨code, Address.ofSlot d, s.asm.relocations⟩, s.table, ?_⟩
  unfold generate
  rw [hgen]

end WellTyped

/-- Analysis that is cut short has found a mistake. -/
theorem log_ne_nil_of_aborted {package : Package} (h : package.analyze.analysis? = none) :
    package.analyze.log ≠ [] := by
  unfold analyze at h ⊢
  cases hrun : (ClassDef.analyzeAll package.classes).run .initial |>.run [] with
  | ok result log => simp [hrun] at h
  | error classes log =>
    exact ((ClassDef.analyzeAll_ensures false false package.classes .initial).error hrun).2

/-- A program without declarations in the updates of its loops is either rejected with a
    reason or compiled: code generation finds everything that it asks for. -/
theorem compile_never_faults {package : Package} (hplain : package.plainUpdates = true)
    (options : Options) :
    (∃ log, log ≠ [] ∧ package.compile options = .error (.rejected log)) ∨
      ∃ executable, package.compile options = .ok executable := by
  unfold compile compileWith
  cases hcheck : package.check .any with
  | mk result log =>
    cases result with
    | ok checked =>
      obtain ⟨package', analysis⟩ := checked
      have htyped : package'.WellTyped false true analysis :=
        wellTyped_of_check hcheck (package.disciplined (fun _ => hplain) nofun)
      obtain ⟨method, -, -, entry, -, hentry⟩ := htyped.entry
      obtain ⟨executable, table, hgen⟩ := htyped.generates hentry options
      right
      refine ⟨executable, ?_⟩
      simp [hentry, hgen]
    | error error =>
      left
      unfold check at hcheck
      dsimp only at hcheck
      split at hcheck
      next haborted =>
        obtain ⟨hrejected, rfl⟩ := Prod.mk.inj hcheck
        obtain rfl := Except.error.inj hrejected
        exact ⟨_, log_ne_nil_of_aborted haborted, rfl⟩
      next =>
        split at hcheck
        next hrejects =>
          obtain ⟨hrejected, rfl⟩ := Prod.mk.inj hcheck
          obtain rfl := Except.error.inj hrejected
          exact ⟨_, by simpa [Policy.any] using hrejects, rfl⟩
        next => cases (Prod.mk.inj hcheck).1

/-- A program that counts down: `for (int i = 3; 0 < i; i = i - 1) System.out.println(i);` -/
def countdown : Package where
  classes := [{
    name := "Main"
    fields := []
    methods := [.main [
      .for {} (some (.varDecl {} { type := .int {}, name := "i" } (.int {} 3)))
        (some (.binary {} .lt (.int {} 0) (.ref {} (.ofPath "i"))))
        (some (.assign {} (.ofPath "i") (.binary {} .sub (.ref {} (.ofPath "i")) (.int {} 1))))
        (.println (.ref {} (.ofPath "i")))]] }]

theorem compile_countdown : countdown.plainUpdates = true ∧
    ((∃ log, log ≠ [] ∧ countdown.compile {} = .error (.rejected log)) ∨
      ∃ executable, countdown.compile {} = .ok executable) :=
  ⟨by decide, compile_never_faults (by decide) {}⟩

end Package

end SmallJava
