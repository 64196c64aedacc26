import SmallJava.Proofs.Frame.Height

namespace SmallJava

open SmallJava.Flow

section Statements

variable {im : Image} {rule : FrameRule} {Γ : Context} {exits : Nat → Int → Prop}

/-- At the end of a block the height is again what it was at its start. -/
theorem PopCode.release {params locals more : List SymbolId} {mark next : Int} {a b : Nat}
    (hframe : im.Frame params locals mark) (hmore : im.Frame params (locals ++ more) next)
    (h : PopCode im (next - mark) a b) : (im.frames rule).Through a b exits a next b mark := by
  have hmark := hframe.next_eq
  have hnext := hmore.next_eq
  rw [List.length_append] at hnext
  refine h.frames ?_ ?_ ?_ <;> omega

/-- A well-typed method body returns the way its method is to. -/
theorem FrameRule.Governs.returns {site : Site} (hrule : rule.Governs im Γ)
    (hsite : rule.args = site.argCount) {results : Int}
    (hresults : results = if Γ.returnTy.isVoid then 0 else 1) {a : Nat} {height : Int}
    (hholds : im.Holds a (.returnWith results site.argCount)) (hbase : linkDataSize + results ≤ height) :
    (im.frames rule).Stays a (a + 1) exits a height := by
  obtain rfl : results = rule.results := hresults.trans hrule.results.symm
  rw [← hsite] at hholds
  exact hholds.ends hbase

theorem Context.isVoid_eq_false (hvoid : Γ.returnTy ≠ .void) : Γ.returnTy.isVoid = false := by
  cases hkind : Γ.returnTy.isVoid with
  | false => rfl
  | true => exact absurd (Ty.isVoid_iff.1 hkind) hvoid

/-- A frame has one height. -/
theorem Image.Frame.next_unique {params locals : List SymbolId} {next next' : Int}
    (h : im.Frame params locals next) (h' : im.Frame params locals next') : next' = next :=
  h'.next_eq.trans h.next_eq.symm

namespace Stmt

mutual

/-- The local variables that a statement brings into force come on top of the frame. -/
theorem Code.frame_after {site : Site} {stmt : Stmt} {locals : List SymbolId} {φ φ' : Tracked} {a b : Nat}
    (hsig : Γ.sig = im.signature) :
    stmt.Code im site φ a b φ' → stmt.WellTyped Γ locals → stmt.plainUpdates = true →
      im.Frame Γ.params locals φ.next → im.Frame Γ.params (locals ++ stmt.binds) φ'.next
  | .block _ _ | .assignKnown _ _ _ _ | .assign _ _ _ | .indexAssign _ _ _ _ | .call _ _ _
  | .returnValue _ _ | .return _ | .for _ _ _ => by
    intro _ _ hframe
    simpa only [binds, List.append_nil] using hframe
  | .varDeclKnown hbound hslot _ _ | .varDecl hbound hslot _ => by
    intro htyped _ hframe
    cases htyped with
    | varDecl hbound' hkind _ _ _ =>
      obtain rfl := Option.some.inj (hbound'.symm.trans hbound)
      rw [hsig] at hkind
      rw [binds, hbound]
      exact hframe.push (hslot (by rw [hkind]; rfl))
  | .ifTrue _ hTrue | .ifOnly _ hTrue => by
    intro htyped hplain hframe
    obtain ⟨hplain, -⟩ := Bool.and_eq_true_iff.1 (by simpa [plainUpdates] using hplain)
    cases htyped with
    | ifElse _ hTrue' _ =>
      have hframe' := hTrue.frame_after hsig hTrue'.typed hplain hframe
      rwa [binds_of_plain hTrue'.plain] at hframe'
  | .ifFalse _ hFalse => by
    intro htyped hplain hframe
    obtain ⟨-, hplain⟩ := Bool.and_eq_true_iff.1 (by simpa [plainUpdates] using hplain)
    cases htyped with
    | ifElse _ _ hFalse' =>
      have hframe' := hFalse.frame_after hsig (fun stmt hmem => (hFalse' stmt hmem).typed) hplain hframe
      rwa [optionBinds_of_plain fun stmt hmem => (hFalse' stmt hmem).plain] at hframe'
  | .ifElse _ hTrue _ hFalse => by
    intro htyped hplain hframe
    obtain ⟨hplain, hplain'⟩ := Bool.and_eq_true_iff.1 (by simpa [plainUpdates] using hplain)
    cases htyped with
    | ifElse _ hTrue' hFalse' =>
      have hFalse' := hFalse' _ rfl
      have hframe' := hTrue.frame_after hsig hTrue'.typed hplain hframe
      rw [binds_of_plain hTrue'.plain, List.append_nil] at hframe'
      have hframe'' := hFalse.frame_after hsig hFalse'.typed hplain' hframe'
      rwa [binds_of_plain hFalse'.plain] at hframe''
  | .while hloop => by
    intro htyped hplain hframe
    cases htyped with
    | «while» _ hbody =>
      simpa only [binds, List.append_nil] using
        hloop.frame_after hsig (by simpa [plainUpdates] using hplain) rfl (by simp) hbody (by simp) hframe

/-- A loop leaves the frame as it was. -/
theorem LoopCode.frame_after {site : Site} {cond : Option Expr} {body : Stmt} {update : Option Stmt}
    {locals : List SymbolId} {φ φ' : Tracked} {a b : Nat} (hsig : Γ.sig = im.signature)
    (hplain : body.plainUpdates = true) (hplain' : optionPlainUpdates update = true)
    (hdeclares : ∀ stmt ∈ update, stmt.isVarDecl = false) :
    LoopCode im site cond body update φ a b φ' → body.BranchWellTyped Γ locals →
      (∀ stmt ∈ update, stmt.WellTyped Γ locals) → im.Frame Γ.params locals φ.next →
        im.Frame Γ.params locals φ'.next
  | .skip _ => fun _ _ hframe => hframe
  | .forever _ hbody hupdate _ | .test _ hbody hupdate _ => by
    intro hbody' hupdate' hframe
    have hframe' := hbody.frame_after hsig hbody'.typed hplain hframe
    rw [binds_of_plain hbody'.plain, List.append_nil] at hframe'
    have hframe'' := hupdate.frame_after hsig hupdate' hplain' hframe'
    rwa [optionBinds_of_plain hdeclares, List.append_nil] at hframe''

/-- After a statement that may be left out, the frame also holds the variable that it declares. -/
theorem OptionCode.frame_after {site : Site} {stmt : Option Stmt} {locals : List SymbolId} {φ φ' : Tracked}
    {a b : Nat} (hsig : Γ.sig = im.signature) :
    OptionCode im site stmt φ a b φ' → (∀ s ∈ stmt, s.WellTyped Γ locals) →
      optionPlainUpdates stmt = true → im.Frame Γ.params locals φ.next →
        im.Frame Γ.params (locals ++ optionBinds stmt) φ'.next
  | .none => fun _ _ hframe => by simpa [optionBinds] using hframe
  | .some hstmt => fun htyped hplain hframe => hstmt.frame_after hsig (htyped _ rfl) hplain hframe

end

/-- A branch leaves the frame as it was. -/
theorem Code.frame_branch {site : Site} {stmt : Stmt} {locals : List SymbolId} {φ φ' : Tracked}
    {a b : Nat} (h : stmt.Code im site φ a b φ') (hsig : Γ.sig = im.signature)
    (htyped : stmt.BranchWellTyped Γ locals) (hplain : stmt.plainUpdates = true)
    (hframe : im.Frame Γ.params locals φ.next) : im.Frame Γ.params locals φ'.next := by
  have hframe' := h.frame_after hsig htyped.typed hplain hframe
  rwa [binds_of_plain htyped.plain, List.append_nil] at hframe'

/-- What updates the variables between the rounds of a loop leaves the frame as it was. -/
theorem OptionCode.frame_update {site : Site} {stmt : Option Stmt} {locals : List SymbolId}
    {φ φ' : Tracked} {a b : Nat} (h : OptionCode im site stmt φ a b φ') (hsig : Γ.sig = im.signature)
    (htyped : ∀ s ∈ stmt, s.WellTyped Γ locals) (hdeclares : ∀ s ∈ stmt, s.isVarDecl = false)
    (hplain : optionPlainUpdates stmt = true) (hframe : im.Frame Γ.params locals φ.next) :
    im.Frame Γ.params locals φ'.next := by
  have hframe' := h.frame_after hsig htyped hplain hframe
  rwa [optionBinds_of_plain hdeclares, List.append_nil] at hframe'

section Simple

variable {locals : List SymbolId} {fold : Folding} {span : Span} {a b c d : Nat} {next : Int}

/-! Statements that have no other statements as parts. -/

/-- A declaration leaves its value where the variable is to be. -/
theorem frames_varDecl {var : LocalDef} {init : Expr} (hrule : rule.Governs im Γ)
    (hfits : b < 0x80000000) (hframe : im.Frame Γ.params locals next)
    (hinit : init.PushCode im fold a b) (htyped : (varDecl span var init).WellTyped Γ locals) :
    (im.frames rule).Through a b exits a next b (next + 1) := by
  cases htyped with
  | @varDecl _ _ _ _ x _ _ hkind _ hinit' hfits' =>
    have hvoid := hrule.voidFree.symbols x _ hkind rfl
    exact hinit.frames hrule hfits hframe.within ⟨_, hinit', hfits'.ne_void hvoid⟩

/-- An assignment leaves the height as it found it. -/
theorem frames_assign {site : Site} {target : Reference} {expr : Expr} {destination : Destination}
    {value : Value} {known known' : Dict SymbolId Word} (hrule : rule.Governs im Γ)
    (hfits : c < 0x80000000) (hframe : im.Frame Γ.params locals next)
    (htarget : target.DestinationCode im destination a b) (hvalue : expr.PushCode im fold b c)
    (hstore : StoreCode im site target value known destination c known')
    (htyped : (assign span target expr).WellTyped Γ locals) :
    (im.frames rule).Through a (c + 1) exits a next (c + 1) next := by
  have hwithin := hframe.within
  cases htyped with
  | assign htarget' _ hvalue' hfits' =>
    have hvoid := hfits'.ne_void (htarget'.avoidsVoid hrule.voidFree)
    refine .trans (htarget.frames hrule hwithin htarget') ?_
    refine .trans (hvalue.frames hrule hfits (hwithin.above _) ⟨_, hvalue', hvoid⟩) ?_
    exact hstore.frames hrule hwithin htarget' htarget

/-- An assignment to an array element leaves the height as it found it. -/
theorem frames_indexAssign {target : Reference} {subscript value : Expr}
    (hrule : rule.Governs im Γ) (hfits : d < 0x80000000) (hframe : im.Frame Γ.params locals next)
    (htarget : target.PushCode im a b) (hsubscript : subscript.PushCode im fold b c)
    (hvalue : value.PushCode im fold c d) (hstore : im.Holds d (.primitive .arrayupd))
    (htyped : (indexAssign span target subscript value).WellTyped Γ locals) :
    (im.frames rule).Through a (d + 1) exits a next (d + 1) next := by
  have hwithin := hframe.within
  have hle := hvalue.le
  cases htyped with
  | indexAssign htarget' hsubscript' hvalue' hfits' =>
    have hvoid := hfits'.ne_void (by simpa [Ty.avoidsVoid] using htarget'.avoidsVoid hrule.voidFree)
    refine .trans (htarget.frames hrule hwithin htarget') ?_
    refine .trans (hsubscript.frames hrule (by omega) hwithin.succ ⟨_, hsubscript', nofun⟩) ?_
    refine .trans (hvalue.frames hrule hfits hwithin.succ.succ ⟨_, hvalue', hvoid⟩) ?_
    exact hstore.updates rfl hwithin.base (by omega)

/-- A call for its effect leaves nothing, even if it has a result. -/
theorem frames_call {callee : Reference} {args : List Expr} {method : SymbolId}
    (hrule : rule.Governs im Γ) (hfits : d < 0x80000000) (hframe : im.Frame Γ.params locals next)
    (hargs : Expr.ArgsCode im fold args a b) (hinvoke : callee.InvokeCode im method b c)
    (hpop : PopCode im (if (im.signature.typeOf method).isVoid then 0 else 1) c d)
    (htyped : (call span callee args).WellTyped Γ locals) :
    (im.frames rule).Through a d exits a next d next := by
  have hwithin := hframe.within
  have hle := hinvoke.le
  have hle' := hpop.le
  cases htyped with
  | call hcallee hargs' =>
    obtain ⟨rfl, hcalled⟩ : _ = _ ∧ (im.frames rule).Through _ _ exits _ _ _ _ :=
      hinvoke.frames hrule hwithin hcallee rfl
    refine .trans (hargs.frames hrule (by omega) hwithin (hrule.voidFree.params _) hargs') ?_
    refine .trans hcalled (hpop.frames ?_ hwithin.base ?_)
    · split <;> omega
    · rw [hrule.sig]

/-- A return with a value leaves just the value above the frame. -/
theorem frames_returnValue {site : Site} {value : Expr} (hrule : rule.Governs im Γ)
    (hsite : rule.args = site.argCount) (hfits : b < 0x80000000)
    (hframe : im.Frame Γ.params locals next) (hvalue : value.PushCode im fold a b)
    (hreturn : im.Holds b (.returnWith 1 site.argCount))
    (htyped : (Stmt.return span (some value)).WellTyped Γ locals) :
    (im.frames rule).Through a (b + 1) exits a next (b + 1) next := by
  have hle := hvalue.le
  have hbase := hframe.within.base
  cases htyped with
  | returnValue hvoid hvalue' hfits' =>
    have hvalue' : value.HasValue Γ (Γ.params ++ locals) := ⟨_, hvalue', hfits'.ne_void_of_ne hvoid⟩
    have hresults : 1 = if Γ.returnTy.isVoid then 0 else (1 : Int) := by
      rw [Context.isVoid_eq_false hvoid]
      rfl
    refine .leaves (by omega) ?_
    refine (hvalue.frames hrule hfits hframe.within hvalue').stays ?_
    exact hrule.returns hsite hresults hreturn (by omega)

/-- A return without a value leaves nothing above the frame. -/
theorem frames_return {site : Site} (hrule : rule.Governs im Γ) (hsite : rule.args = site.argCount)
    (hframe : im.Frame Γ.params locals next) (hreturn : im.Holds a (.returnWith 0 site.argCount))
    (htyped : (Stmt.return span none).WellTyped Γ locals) :
    (im.frames rule).Through a (a + 1) exits a next (a + 1) next := by
  cases htyped with
  | «return» hvoid =>
    refine .leaves (Nat.le_succ a) (hrule.returns hsite ?_ hreturn ?_)
    · rw [hvoid]
      rfl
    · simpa using hframe.within.base

end Simple

mutual

/-- A statement leaves the height of the frame at the local variables it brings into force. -/
theorem Code.frames {site : Site} {stmt : Stmt} {locals : List SymbolId} {φ φ' : Tracked} {a b : Nat}
    (hrule : rule.Governs im Γ) (hsite : rule.args = site.argCount) (hfits : b < 0x80000000) :
    stmt.Code im site φ a b φ' → stmt.WellTyped Γ locals → stmt.plainUpdates = true →
      im.Frame Γ.params locals φ.next →
        ∀ exits, (im.frames rule).Through a b exits a φ.next b φ'.next
  | .block hstmts hpop => by
    intro htyped hplain hframe
    have hle := hpop.le
    cases htyped with
    | block hstmts' =>
      obtain ⟨more, hmore, hthrough⟩ := hstmts.frames hrule hsite (by omega) hstmts'
        (by simpa [plainUpdates] using hplain) hframe
      intro exits
      exact (hthrough exits).trans (hpop.release hframe hmore)
  | .varDeclKnown _ _ hinit hliteral => by
    intro htyped _ hframe _
    exact frames_varDecl hrule hfits hframe (.known hinit hliteral) htyped
  | .varDecl _ _ hinit => by
    intro htyped _ hframe _
    exact frames_varDecl hrule hfits hframe (.onStack hinit) htyped
  | .assignKnown htarget hvalue hliteral hstore => by
    intro htyped _ hframe _
    exact frames_assign hrule (by omega) hframe htarget (.known hvalue hliteral) hstore htyped
  | .assign htarget hvalue hstore => by
    intro htyped _ hframe _
    exact frames_assign hrule (by omega) hframe htarget (.onStack hvalue) hstore htyped
  | .indexAssign htarget hsubscript hvalue hstore => by
    intro htyped _ hframe _
    exact frames_indexAssign hrule (by omega) hframe htarget hsubscript hvalue hstore htyped
  | .call hargs hinvoke hpop => by
    intro htyped _ hframe _
    exact frames_call hrule hfits hframe hargs hinvoke hpop htyped
  | .returnValue hvalue hreturn => by
    intro htyped _ hframe _
    exact frames_returnValue hrule hsite (by omega) hframe hvalue hreturn htyped
  | .return hreturn => fun htyped _ hframe _ => frames_return hrule hsite hframe hreturn htyped
  | .ifTrue _ hTrue => by
    intro htyped hplain hframe
    obtain ⟨hplain, -⟩ := Bool.and_eq_true_iff.1 (by simpa [plainUpdates] using hplain)
    cases htyped with
    | ifElse _ hTrue' _ => exact hTrue.frames hrule hsite hfits hTrue'.typed hplain hframe
  | .ifFalse _ hFalse => by
    intro htyped hplain hframe
    obtain ⟨-, hplain⟩ := Bool.and_eq_true_iff.1 (by simpa [plainUpdates] using hplain)
    cases htyped with
    | ifElse _ _ hFalse' =>
      exact hFalse.frames hrule hsite hfits (fun stmt hmem => (hFalse' stmt hmem).typed) hplain hframe
  | .ifOnly hcond hTrue => by
    intro htyped hplain hframe
    have hle := hTrue.le
    have hbranch : rule.args = site.branch.argCount := hsite
    obtain ⟨hplain, -⟩ := Bool.and_eq_true_iff.1 (by simpa [plainUpdates] using hplain)
    cases htyped with
    | ifElse hcond' hTrue' _ =>
      have hsame := hframe.next_unique (hTrue.frame_branch hrule.sig hTrue' hplain hframe)
      have hthrough := hTrue.frames hrule hbranch hfits hTrue'.typed hplain hframe
      rw [hsame] at hthrough ⊢
      intro exits
      apply Through.settle
      refine .trans (hcond.frames hrule ?_ hfits hframe.within also_self ⟨_, hcond', nofun⟩) (hthrough _)
      omega
  | .ifElse hcond hTrue hdone hFalse => by
    intro htyped hplain hframe
    have hle := hTrue.le
    have hle' := hFalse.le
    have hbranch : rule.args = site.branch.argCount := hsite
    obtain ⟨hplain, hplain'⟩ := Bool.and_eq_true_iff.1 (by simpa [plainUpdates] using hplain)
    cases htyped with
    | ifElse hcond' hTrue' hFalse' =>
      have hFalse' := hFalse' _ rfl
      simp only [optionPlainUpdates] at hplain'
      have hframe' := hTrue.frame_branch hrule.sig hTrue' hplain hframe
      have hframe'' := hFalse.frame_branch hrule.sig hFalse' hplain' hframe'
      have hthrough := hTrue.frames hrule hbranch (by omega) hTrue'.typed hplain hframe
      have hthrough' := hFalse.frames hrule hbranch (by omega) hFalse'.typed hplain' hframe'
      rw [hframe.next_unique hframe'] at hthrough hthrough'
      rw [hframe.next_unique hframe''] at hthrough' ⊢
      intro exits
      have hvalue : Expr.HasValue Γ (Γ.params ++ locals) _ := ⟨_, hcond', nofun⟩
      refine .join ?_ (hthrough' exits)
      refine .trans (hcond.frames hrule (by omega) (by omega) hframe.within also_self hvalue) ?_
      refine .trans (hthrough _) ?_
      exact hdone.skipsTo (by omega) hframe.within.base
  | @Code.while _ _ _ _ body _ _ _ _ hloop => by
    intro htyped hplain hframe
    have hrounds : rule.args = site.loop.argCount := hsite
    cases htyped with
    | «while» hcond hbody =>
      have hplain : body.plainUpdates = true := by simpa [plainUpdates] using hplain
      have hframe' := hloop.frame_after hrule.sig hplain rfl (by simp) hbody (by simp) hframe
      rw [hframe.next_unique hframe']
      exact hloop.frames hrule hrounds hfits hplain rfl (by simp) (by simpa using hcond) hbody (by simp)
        hframe
  | .for hinit hloop hpop => by
    intro htyped hplain hframe
    have hle := hloop.le
    have hle' := hpop.le
    have hrounds : rule.args = site.loop.argCount := hsite
    obtain ⟨hplain₁, hdeclares, hplain₂, hplain₃⟩ := plain_of_plainUpdates hplain
    cases htyped with
    | «for» hinit' hcond hupdate hbody =>
      rw [optionBinds_of_plain hdeclares, List.append_nil] at hbody
      have hframe' := hinit.frame_after hrule.sig hinit' hplain₁ hframe
      have hframe'' := hloop.frame_after hrule.sig hplain₃ hplain₂ hdeclares hbody hupdate hframe'
      have hthrough := hinit.frames hrule hsite (by omega) hinit' hplain₁ hframe
      have hthrough' := hloop.frames hrule hrounds (by omega) hplain₃ hplain₂ hdeclares hcond hbody
        hupdate hframe'
      intro exits
      rw [hframe'.next_unique hframe''] at hpop
      exact ((hthrough exits).trans (hthrough' exits)).trans (hpop.release hframe hframe')

/-- Every round of a loop starts and ends at the height at which the loop starts. -/
theorem LoopCode.frames {site : Site} {cond : Option Expr} {body : Stmt} {update : Option Stmt}
    {locals : List SymbolId} {φ φ' : Tracked} {a b : Nat} (hrule : rule.Governs im Γ)
    (hsite : rule.args = site.argCount) (hfits : b < 0x80000000)
    (hplain : body.plainUpdates = true) (hplain' : optionPlainUpdates update = true)
    (hdeclares : ∀ stmt ∈ update, stmt.isVarDecl = false) :
    LoopCode im site cond body update φ a b φ' →
      (∀ expr ∈ cond, expr.HasType Γ (Γ.params ++ locals) .boolean) →
        body.BranchWellTyped Γ locals → (∀ stmt ∈ update, stmt.WellTyped Γ locals) →
          im.Frame Γ.params locals φ.next →
            ∀ exits, (im.frames rule).Through a b exits a φ.next b φ.next
  | .skip _ => fun _ _ _ _ exits => .refl _ _ _
  | .forever _ hbody hupdate hback => by
    intro hcond hbody' hupdate' hframe
    have hle := hbody.le
    have hle' := hupdate.le
    have hle'' := hback.le
    have hframe' := hbody.frame_branch hrule.sig hbody' hplain hframe
    have hframe'' := hupdate.frame_update hrule.sig hupdate' hdeclares hplain' hframe'
    have hthrough := hbody.frames hrule hsite (by omega) hbody'.typed hplain hframe
    have hthrough' := hupdate.frames hrule hsite (by omega) hupdate' hplain' hframe'
    rw [hframe.next_unique hframe'] at hthrough hthrough'
    rw [hframe.next_unique hframe''] at hthrough'
    have hvalue : ∀ expr ∈ cond, expr.HasValue Γ (Γ.params ++ locals) :=
      fun expr hmem => ⟨_, hcond expr hmem, nofun⟩
    intro exits
    apply Through.loop
    refine .trans (hthrough _) ?_
    refine .trans (hthrough' _) ?_
    exact hback.frames hrule hfits (by omega) hframe.within also_self hvalue
  | .test htest hbody hupdate hback => by
    intro hcond hbody' hupdate' hframe
    have hle := hbody.le
    have hle' := hupdate.le
    have hle'' := hback.le
    have hframe' := hbody.frame_branch hrule.sig hbody' hplain hframe
    have hframe'' := hupdate.frame_update hrule.sig hupdate' hdeclares hplain' hframe'
    have hthrough := hbody.frames hrule hsite (by omega) hbody'.typed hplain hframe
    have hthrough' := hupdate.frames hrule hsite (by omega) hupdate' hplain' hframe'
    rw [hframe.next_unique hframe'] at hthrough hthrough'
    rw [hframe.next_unique hframe''] at hthrough'
    have hvalue : ∀ expr ∈ cond, expr.HasValue Γ (Γ.params ++ locals) :=
      fun expr hmem => ⟨_, hcond expr hmem, nofun⟩
    intro exits
    apply Through.settle
    refine .trans (htest.frames hrule (by omega) hfits hframe.within also_self hvalue) ?_
    apply Through.loop
    refine .trans (hthrough _) ?_
    refine .trans (hthrough' _) ?_
    exact hback.frames hrule hfits (by omega) hframe.within also_self hvalue

theorem OptionCode.frames {site : Site} {stmt : Option Stmt} {locals : List SymbolId} {φ φ' : Tracked}
    {a b : Nat} (hrule : rule.Governs im Γ) (hsite : rule.args = site.argCount) (hfits : b < 0x80000000) :
    OptionCode im site stmt φ a b φ' → (∀ s ∈ stmt, s.WellTyped Γ locals) →
      optionPlainUpdates stmt = true → im.Frame Γ.params locals φ.next →
        ∀ exits, (im.frames rule).Through a b exits a φ.next b φ'.next
  | .none => fun _ _ _ _ => .refl _ _ _
  | .some hstmt => fun htyped hplain => hstmt.frames hrule hsite hfits (htyped _ rfl) hplain

/-- The code of statements in a row raises the height by the variables that they declare and leave
    in force. -/
theorem ListCode.frames {site : Site} {stmts : List Stmt} {locals : List SymbolId} {φ φ' : Tracked}
    {a b : Nat} (hrule : rule.Governs im Γ) (hsite : rule.args = site.argCount) (hfits : b < 0x80000000) :
    ListCode im site stmts φ a b φ' → Stmt.ListWellTyped Γ locals stmts →
      allPlainUpdates stmts = true → im.Frame Γ.params locals φ.next →
        ∃ more, im.Frame Γ.params (locals ++ more) φ'.next ∧
          ∀ exits, (im.frames rule).Through a b exits a φ.next b φ'.next
  | .nil => fun _ _ hframe => ⟨[], by simpa using hframe, fun exits => .refl _ _ _⟩
  | .cons hstmt hrest => by
    intro htyped hplain hframe
    have hle := hrest.le
    cases htyped with
    | cons hstmt' hrest' =>
      obtain ⟨hplain, hplain'⟩ := Bool.and_eq_true_iff.1 (by simpa [allPlainUpdates] using hplain)
      have hframe' := hstmt.frame_after hrule.sig hstmt' hplain hframe
      have hthrough := hstmt.frames hrule hsite (by omega) hstmt' hplain hframe
      obtain ⟨more, hmore, hthrough'⟩ := hrest.frames hrule hsite hfits hrest' hplain' hframe'
      refine ⟨_ ++ more, by rwa [← List.append_assoc], fun exits => ?_⟩
      exact (hthrough exits).trans (hthrough' exits)

end

end Stmt

end Statements

end SmallJava
