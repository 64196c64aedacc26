import SmallJava.Proofs.Execution.Safety
import SmallJava.Proofs.Typing.Discipline

namespace SmallJava

open Exec

/-- Variables stay in force when others come into force. -/
theorem Context.subset_more (Γ : Context) (locals more : List SymbolId) :
    Γ.params ++ locals ⊆ Γ.params ++ (locals ++ more) := by
  rw [← List.append_assoc]
  exact List.subset_append_left _ _

/-- After a statement, the variables in force hold values of their types, or the method has a
    result of its type. -/
def Leave.Typed (sig : Signature) (W : HeapTyping) (vars : List SymbolId) (ty : Ty) : Leave → Prop
  | next env => env.Typed sig W vars
  | .return result => HasResult sig W ty result

theorem Leave.Typed.subset {sig : Signature} {W : HeapTyping} {vars vars' : List SymbolId} {ty : Ty}
    {leave : Leave} (h : leave.Typed sig W vars ty) (hsub : vars' ⊆ vars) :
    leave.Typed sig W vars' ty := by
  cases leave with
  | next env => exact fun x hmem => h x (hsub hmem)
  | «return» result => exact h

namespace Exec

variable {sig : Signature} {W : HeapTyping} {vars vars' : List SymbolId} {ty : Ty}

/-- A statement and what follows it are sound in a row. -/
theorem Sound.followedBy {first : Exec Leave} {rest : Valuation → Exec Leave}
    (hfirst : Sound sig W first fun W' => Leave.Typed sig W' vars ty)
    (hrest : ∀ (W' : HeapTyping) env, W.Extends W' → Valuation.Typed sig W' vars env →
      Sound sig W' (rest env) fun W'' => Leave.Typed sig W'' vars' ty) :
    Sound sig W (first.followedBy rest) fun W' => Leave.Typed sig W' vars' ty := by
  refine hfirst.bind fun W' leave hle hleave => ?_
  cases leave with
  | next env => exact hrest W' env hle hleave
  | «return» result => exact sound_pure hleave

/-- What each round preserves, all rounds do. -/
theorem sound_loop {cond : Valuation → Exec Bool} {round : Valuation → Exec Leave}
    (hcond : ∀ (W' : HeapTyping) env, W.Extends W' → Valuation.Typed sig W' vars env →
      Sound sig W' (cond env) fun _ _ => True)
    (hround : ∀ (W' : HeapTyping) env, W.Extends W' → Valuation.Typed sig W' vars env →
      Sound sig W' (round env) fun W'' => Leave.Typed sig W'' vars ty)
    (rounds : Nat) {env : Valuation} (henv : env.Typed sig W vars) :
    Sound sig W (loop cond round rounds env) fun W' => Leave.Typed sig W' vars ty := by
  induction rounds generalizing W env with
  | zero => exact sound_timeout
  | succ rounds ih =>
    refine (hcond W env (.refl W) henv).bind fun W₁ goesOn hle _ => ?_
    cases goesOn with
    | false => exact sound_pure (henv.mono hle)
    | true =>
      rw [if_pos rfl]
      refine (hround W₁ env hle (henv.mono hle)).followedBy fun W₂ env' hle' henv' => ?_
      exact ih (fun W' env hle'' => hcond W' env ((hle.trans hle').trans hle''))
        (fun W' env hle'' => hround W' env ((hle.trans hle').trans hle'')) henv'

end Exec

namespace Stmt

variable {sc : Scene} {Γ : Context}

/-- Whether a loop goes on makes sense if its condition has a truth value. -/
theorem sound_goesOn {W : HeapTyping} {vars : List SymbolId} {env : Valuation}
    {cond : Option Expr} (hsc : sc.Typed Γ W) (henv : env.Typed Γ.sig W vars)
    (hcond : ∀ expr ∈ cond, expr.HasType Γ vars .boolean) :
    Sound Γ.sig W (goesOn sc cond env) fun _ _ => True := by
  cases cond with
  | none => exact sound_pure trivial
  | some cond =>
    exact ((hcond cond rfl).sound hsc henv Ty.boolean_ne_void).bind fun _ _ _ _ => sound_pure trivial

theorem plainUpdates_of_mem {stmt : Option Stmt} (hplain : optionPlainUpdates stmt = true)
    {s : Stmt} (hmem : s ∈ stmt) : s.plainUpdates = true := by
  obtain rfl := hmem
  exact hplain

theorem sound_execOption {W : HeapTyping} {vars : List SymbolId} {ty : Ty} {env : Valuation}
    {stmt : Option Stmt} (hnone : stmt = none → env.Typed Γ.sig W vars)
    (hstmt : ∀ s ∈ stmt, Sound Γ.sig W (s.exec sc env) fun W' => Leave.Typed Γ.sig W' vars ty) :
    Sound Γ.sig W (execOption sc stmt env) fun W' => Leave.Typed Γ.sig W' vars ty := by
  cases stmt with
  | none => exact sound_pure (hnone rfl)
  | some stmt => exact hstmt stmt rfl

mutual

/-- A well-typed statement keeps to the types. -/
theorem WellTyped.sound {W : HeapTyping} {locals : List SymbolId} {env : Valuation} {stmt : Stmt}
    (hsc : sc.Typed Γ W) (henv : env.Typed Γ.sig W (Γ.params ++ locals)) :
    stmt.WellTyped Γ locals → stmt.plainUpdates = true →
      Sound Γ.sig W (stmt.exec sc env) fun W' =>
        Leave.Typed Γ.sig W' (Γ.params ++ (locals ++ stmt.binds)) Γ.returnTy
  | .block hstmts => by
    intro hplain
    simp only [binds, List.append_nil]
    exact hstmts.sound hsc henv hplain
  | .varDecl hbound hkind _ hinit hfits => by
    intro _
    have hvoid := hfits.ne_void (hsc.voidFree.symbols _ _ hkind rfl)
    refine (hinit.sound hsc henv hvoid).bind fun W₁ d hle hd => ?_
    simp only [binds, hbound]
    refine sound_pure ((henv.mono hle).update (hd.fits hfits) fun y hmem hne => ?_)
    simpa [hne] using hmem
  | .assign htarget hplace hvalue hfits => by
    intro _
    have hvoid := hfits.ne_void (htarget.avoidsVoid hsc.voidFree)
    refine (htarget.sound_assign hplace hsc henv fun W' hle => ?_).bind fun W₁ env' _ henv' =>
      sound_pure (by simpa [Leave.Typed, binds] using henv')
    exact (hvalue.sound (hsc.mono hle) (henv.mono hle) hvoid).mono fun _ _ _ hd => hd.fits hfits
  | .indexAssign htarget hsubscript hvalue hfits => by
    intro _
    have hvoid := hfits.ne_void (by
      simpa [Ty.avoidsVoid] using htarget.avoidsVoid hsc.voidFree)
    refine (htarget.sound hsc henv).bind fun W₁ array hle₁ harray => ?_
    refine (hsubscript.sound (hsc.mono hle₁) (henv.mono hle₁) Ty.int_ne_void).bind fun W₂ i hle₂ hi => ?_
    have hle := hle₁.trans hle₂
    refine (hvalue.sound (hsc.mono hle) (henv.mono hle) hvoid).bind fun W₃ d hle₃ hd => ?_
    refine (sound_element (harray.mono (hle₂.trans hle₃)) (hi.mono hle₃)).bind
      fun W₄ place hle₄ hplace => ?_
    obtain ⟨n, rfl, hcell⟩ := hplace
    refine (sound_store hcell ((hd.fits hfits).mono hle₄)).bind fun W₅ _ hle₅ _ => sound_pure ?_
    simpa [Leave.Typed, binds] using henv.mono (((hle.trans hle₃).trans hle₄).trans hle₅)
  | .call hcallee hargs => by
    intro _
    obtain ⟨hbinding, info, hkind⟩ := hcallee.kind
    refine (hargs.sound hsc henv (hsc.voidFree.params _)).bind fun W₁ ds hle₁ hds => ?_
    refine ((hsc.mono hle₁).sound_call hbinding hkind
      (fun hstatic => hcallee.sound_evalOwner (hsc.mono hle₁) (henv.mono hle₁) hkind hstatic)
      hds).bind fun W₂ result hle₂ _ => sound_pure ?_
    simpa [Leave.Typed, binds] using henv.mono (hle₁.trans hle₂)
  | .return hvoid => fun _ => sound_pure hvoid
  | .returnValue hvoid hvalue hfits => by
    intro _
    exact (hvalue.sound hsc henv (hfits.ne_void_of_ne hvoid)).bind fun _ _ _ hd =>
      sound_pure ⟨hvoid, hd.fits hfits⟩
  | .ifElse hcond hTrue hFalse => by
    intro hplain
    simp only [plainUpdates, Bool.and_eq_true] at hplain
    refine (hcond.sound hsc henv Ty.boolean_ne_void).bind fun W₁ d hle _ => ?_
    simp only [binds, List.append_nil]
    split
    · exact hTrue.sound (hsc.mono hle) (henv.mono hle) hplain.1
    · refine sound_execOption (fun _ => henv.mono hle) fun stmt hmem => ?_
      exact (hFalse stmt hmem).sound (hsc.mono hle) (henv.mono hle)
        (plainUpdates_of_mem hplain.2 hmem)
  | .while hcond hbody => by
    intro hplain
    simp only [binds, List.append_nil]
    refine sound_loop (fun W' env' hle henv' => ?_) (fun W' env' hle henv' => ?_) _ henv
    · exact sound_goesOn (hsc.mono hle) henv' (by rintro _ ⟨⟩; exact hcond)
    · exact hbody.sound (hsc.mono hle) henv' hplain
  | @WellTyped.for _ _ _ init cond update body hinit hcond hupdate hbody => by
    intro hplain
    obtain ⟨hplain, hdecl, hplain', hplain''⟩ := plain_of_plainUpdates hplain
    rw [optionBinds_of_plain hdecl, List.append_nil] at hbody
    simp only [binds, List.append_nil]
    have hfirst : Sound Γ.sig W (execOption sc init env) fun W' =>
        Leave.Typed Γ.sig W' (Γ.params ++ (locals ++ optionBinds init)) Γ.returnTy := by
      refine sound_execOption (fun hnone => ?_) fun stmt hmem => ?_
      · simpa [optionBinds, hnone] using henv
      · have hbinds : optionBinds init = stmt.binds := by
          simp [optionBinds, Option.mem_def.1 hmem]
        rw [hbinds]
        exact (hinit stmt hmem).sound hsc henv (plainUpdates_of_mem hplain hmem)
    refine hfirst.followedBy fun W₁ env₁ hle₁ henv₁ => ?_
    refine (sound_loop (fun W₂ env₂ hle₂ henv₂ => ?_) (fun W₂ env₂ hle₂ henv₂ => ?_) sc.rounds
      henv₁).mono fun _ leave _ hleave => hleave.subset ?_
    · exact sound_goesOn (hsc.mono (hle₁.trans hle₂)) henv₂ hcond
    · refine (hbody.sound (hsc.mono (hle₁.trans hle₂)) henv₂ hplain'').followedBy
        fun W₃ env₃ hle₃ henv₃ => ?_
      refine sound_execOption (fun _ => henv₃) fun stmt hmem => ?_
      have hsound := (hupdate stmt hmem).sound (hsc.mono ((hle₁.trans hle₂).trans hle₃)) henv₃
        (plainUpdates_of_mem hplain' hmem)
      rwa [binds_of_plain (hdecl stmt hmem), List.append_nil] at hsound
    · exact Γ.subset_more _ _

/-- A well-typed branch makes sense and leaves the variables around it typed. -/
theorem BranchWellTyped.sound {W : HeapTyping} {locals : List SymbolId} {env : Valuation}
    {stmt : Stmt} (hsc : sc.Typed Γ W) (henv : env.Typed Γ.sig W (Γ.params ++ locals)) :
    stmt.BranchWellTyped Γ locals → stmt.plainUpdates = true →
      Sound Γ.sig W (stmt.exec sc env) fun W' =>
        Leave.Typed Γ.sig W' (Γ.params ++ locals) Γ.returnTy
  | .intro hstmt hdecl => by
    intro hplain
    simpa [binds_of_plain hdecl] using hstmt.sound hsc henv hplain

/-- A well-typed list of statements makes sense and leaves the variables around it typed. -/
theorem ListWellTyped.sound {W : HeapTyping} {locals : List SymbolId} {env : Valuation}
    {stmts : List Stmt} (hsc : sc.Typed Γ W) (henv : env.Typed Γ.sig W (Γ.params ++ locals)) :
    ListWellTyped Γ locals stmts → allPlainUpdates stmts = true →
      Sound Γ.sig W (execAll sc stmts env) fun W' =>
        Leave.Typed Γ.sig W' (Γ.params ++ locals) Γ.returnTy
  | .nil => fun _ => sound_pure (P := fun W' => Leave.Typed Γ.sig W' _ _) henv
  | .cons hstmt hrest => by
    intro hplain
    simp only [allPlainUpdates, Bool.and_eq_true] at hplain
    refine (hstmt.sound hsc henv hplain.1).followedBy fun W₁ env₁ hle henv₁ => ?_
    exact (hrest.sound (hsc.mono hle) henv₁ hplain.2).mono fun _ leave _ hleave =>
      hleave.subset (Γ.subset_more _ _)

end

end Stmt

end SmallJava
