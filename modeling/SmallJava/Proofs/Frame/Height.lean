import SmallJava.Proofs.Codegen.Extent
import SmallJava.Proofs.Frame.Effect
import SmallJava.Proofs.Typing.Discipline
import SmallJava.Proofs.Typing.ReferenceSoundness
import SmallJava.Proofs.Typing.Values

namespace SmallJava

open SmallJava.Flow

/-- Methods start where calls find them, and the rule is that of the method around. -/
structure FrameRule.Governs (rule : FrameRule) (im : Image) (Γ : Context) : Prop where
  sig : Γ.sig = im.signature
  voidFree : Γ.sig.VoidFree
  links : ∀ m info d, Γ.sig.kind? m = some (.method info) → im.slot? m = some d →
    rule.methodAt? d = some m
  results : rule.results = if Γ.returnTy.isVoid then 0 else 1

/-- The variables that are stored in the frame are stored below a height. -/
structure Image.Within (im : Image) (vars : List SymbolId) (height : Int) : Prop where
  base : linkDataSize ≤ height
  below : ∀ x ∈ vars, ∀ d, im.slot? x = some d → d < height

theorem Image.Within.mono {im : Image} {vars : List SymbolId} {height height' : Int}
    (h : im.Within vars height) (hle : height ≤ height') : im.Within vars height' where
  base := Int.le_trans h.base hle
  below := fun x hmem d hslot => Int.lt_of_lt_of_le (h.below x hmem d hslot) hle

theorem Image.Within.succ {im : Image} {vars : List SymbolId} {height : Int}
    (h : im.Within vars height) : im.Within vars (height + 1) :=
  h.mono (by omega)

/-- The frame of a method: the parameters right below it, then the link data, then the local
    variables in the order in which they came into force. -/
structure Image.Frame (im : Image) (params locals : List SymbolId) (next : Int) : Prop where
  next_eq : next = linkDataSize + locals.length
  params : ∀ (i : Nat) x, params[i]? = some x → im.slot? x = some (i - params.length : Int)
  locals : ∀ (i : Nat) x, locals[i]? = some x → im.slot? x = some (linkDataSize + i : Int)

namespace Image.Frame

variable {im : Image} {params locals : List SymbolId} {next : Int}

/-- Parameters and local variables of a frame are stored below its height. -/
theorem within (h : im.Frame params locals next) : im.Within (params ++ locals) next where
  base := by
    have hnext := h.next_eq
    omega
  below := by
    intro x hmem d hslot
    have hnext := h.next_eq
    have hlink : (0 : Int) ≤ linkDataSize := by decide
    obtain hmem | hmem := List.mem_append.1 hmem
    · obtain ⟨i, hi, rfl⟩ := List.mem_iff_getElem.1 hmem
      have hslot' := h.params i _ (List.getElem?_eq_getElem hi)
      obtain rfl := Option.some.inj (hslot.symm.trans hslot')
      omega
    · obtain ⟨i, hi, rfl⟩ := List.mem_iff_getElem.1 hmem
      have hslot' := h.locals i _ (List.getElem?_eq_getElem hi)
      obtain rfl := Option.some.inj (hslot.symm.trans hslot')
      omega

/-- A new local variable goes on top. -/
theorem push (h : im.Frame params locals next) {x : SymbolId} (hslot : im.slot? x = some next) :
    im.Frame params (locals ++ [x]) (next + 1) where
  next_eq := by
    have hnext := h.next_eq
    rw [List.length_append, List.length_singleton]
    omega
  params := h.params
  locals := by
    intro i y hget
    obtain hlt | hge := Nat.lt_or_ge i locals.length
    · rw [List.getElem?_append_left hlt] at hget
      exact h.locals i y hget
    · rw [List.getElem?_append_right hge] at hget
      obtain ⟨hi, rfl⟩ := List.getElem?_eq_some_iff.1 hget
      have heq : i = locals.length := by
        have hi' : i - locals.length < 1 := hi
        omega
      rw [List.getElem_singleton, hslot, h.next_eq, heq]

end Image.Frame

/-- The words that a value takes on the stack. -/
def Value.words : Value → Int
  | known _ => 0
  | onStack => 1

/-- The words on the stack that an assignment needs below its value. -/
def Destination.words : Destination → Int
  | register _ _ => 0
  | field => 2

theorem Destination.words_nonneg (destination : Destination) : 0 ≤ destination.words := by
  cases destination <;> simp [words]

theorem Image.Within.above {im : Image} {vars : List SymbolId} {height : Int}
    (h : im.Within vars height) (destination : Destination) :
    im.Within vars (height + destination.words) :=
  h.mono (Int.le_add_of_nonneg_right destination.words_nonneg)

section Heights

variable {im : Image} {rule : FrameRule} {Γ : Context} {vars : List SymbolId}
  {exits : Nat → Int → Prop} {a b : Nat} {height : Int}

namespace Reference

/-- What is read through the local base is a variable of the frame. -/
theorem Value.below_of_base {annot : Annot} {name : Ident} {x : SymbolId} {r : Register} {d : Int}
    {ty : Ty} (hrule : rule.Governs im Γ) (hwithin : im.Within vars height)
    (htyped : Value Γ vars (.ident annot name) ty) (hbound : name.binding = some x)
    (hbase : (im.signature.kind? x).bind (·.base?) = some r) (hslot : im.slot? x = some d)
    (hr : r = .lb) : d < height := by
  subst hr
  cases htyped with
  | «variable» hbound' hvar _ =>
    obtain rfl := Option.some.inj (hbound'.symm.trans hbound)
    exact hwithin.below _ hvar d hslot
  | ownField hbound' hkind _ =>
    obtain rfl := Option.some.inj (hbound'.symm.trans hbound)
    rw [← hrule.sig, hkind] at hbase
    simp only [Option.bind_some, SymbolKind.base?] at hbase
    split at hbase <;> cases hbase

/-- The code that pushes a path raises the height by one. -/
theorem PushCode.frames {ref : Reference} {ty : Ty} (hrule : rule.Governs im Γ)
    (hwithin : im.Within vars height) (hcode : ref.PushCode im a b) (htyped : ref.Value Γ vars ty) :
    (im.frames rule).Through a b exits a height b (height + 1) := by
  have hbase := hwithin.base
  induction hcode generalizing ty with
  | this hload => exact hload.loadsAddress hbase
  | «variable» hbound hregister hslot hload =>
    exact hload.loads hbase (htyped.below_of_base hrule hwithin hbound hregister hslot)
  | length hbound hkind _ hlen ih =>
    obtain ⟨elem, howner⟩ := htyped.owner_of_length hbound (hrule.sig ▸ hkind)
    exact (ih howner).trans (hlen.replaces rfl hbase)
  | staticField _ _ _ _ hload => exact hload.loads hbase nofun
  | ownField _ _ _ _ _ hload => exact hload.loads hbase nofun
  | field hbound hkind hstatic _ _ _ hoffset hload ih =>
    have howner := htyped.owner_of_field hbound (hrule.sig ▸ hkind) hstatic
    refine .trans (ih howner) ?_
    refine .trans (hoffset.loadsLiteral (by omega)) ?_
    exact hload.combines rfl hbase

/-- The code that prepares an assignment raises the height by the words that the assignment needs.
    -/
theorem DestinationCode.frames {ref : Reference} {destination : Destination} {ty : Ty}
    (hrule : rule.Governs im Γ) (hwithin : im.Within vars height)
    (hcode : ref.DestinationCode im destination a b) (htyped : ref.Value Γ vars ty) :
    (im.frames rule).Through a b exits a height b (height + destination.words) := by
  have hbase := hwithin.base
  cases hcode with
  | field hbound hkind hstatic _ _ howner hoffset =>
    have howner' := htyped.owner_of_field hbound (hrule.sig ▸ hkind) hstatic
    have hwords : height + Destination.field.words = height + 1 + 1 := by
      simp only [Destination.words]
      omega
    rw [hwords]
    exact (howner.frames hrule hwithin howner').trans (hoffset.loadsLiteral (by omega))
  | _ =>
    simp only [Destination.words, Int.add_zero]
    exact .refl _ _ _

/-- The code of the object that a method is called on raises the height by one. -/
theorem ReceiverCode.frames {callee : Reference} {m : SymbolId} {info : MethodInfo}
    (hrule : rule.Governs im Γ) (hwithin : im.Within vars height)
    (hcode : callee.ReceiverCode im a b) (htyped : callee.Callee Γ vars m)
    (hkind : Γ.sig.kind? m = some (.method info)) (hstatic : info.modifiers.isStatic = false) :
    (im.frames rule).Through a b exits a height b (height + 1) := by
  cases hcode with
  | explicit howner =>
    exact howner.frames hrule hwithin (htyped.owner_of_instance hkind hstatic)
  | implicit _ hload => exact hload.loadsAddress hwithin.base

/-- A call takes its arguments and leaves its result. -/
theorem InvokeCode.frames {callee : Reference} {m method : SymbolId} {height' : Int}
    (hrule : rule.Governs im Γ) (hwithin : im.Within vars height)
    (hcode : callee.InvokeCode im method a b) (htyped : callee.Callee Γ vars m)
    (hheight : height' = height + (Γ.sig.paramsOf m).length) :
    m = method ∧ (im.frames rule).Through a b exits a height' b
      (height + if (Γ.sig.typeOf m).isVoid then 0 else 1) := by
  obtain ⟨hbinding, info, hkind⟩ := htyped.kind
  have hbase := hwithin.base
  have hsig := hrule.sig
  have hwithin' : im.Within vars height' := hwithin.mono (by omega)
  have hcalls : ∀ entry, im.slot? m = some entry →
      (Instruction.call entry).effect? im.signature rule.methodAt? =
          some (im.signature.callEffect 0 m) ∧
        (Instruction.callInstance entry).effect? im.signature rule.methodAt? =
          some (im.signature.callEffect 1 m) := by
    intro entry hentry
    have hlink := hrule.links m info entry hkind hentry
    simp [Instruction.effect?, Instruction.call, Instruction.callInstance, hlink]
  cases hcode with
  | static hbound hkind' hstatic hentry hcall =>
    obtain rfl := Option.some.inj (hbinding.symm.trans hbound)
    refine ⟨rfl, hcall.shifts (hcalls _ hentry).1 rfl nofun nofun ?_ ?_⟩
    · simp only [Signature.callEffect, ← hsig]
      omega
    · simp only [Signature.callEffect, ← hsig]
      omega
  | «instance» hbound hkind' hstatic hentry hreceiver hcall =>
    obtain rfl := Option.some.inj (hbinding.symm.trans hbound)
    refine ⟨rfl, .trans (hreceiver.frames hrule hwithin' htyped (hsig ▸ hkind') hstatic)
      (hcall.shifts (hcalls _ hentry).2 rfl nofun nofun ?_ ?_)⟩
    · simp only [Signature.callEffect, ← hsig]
      omega
    · simp only [Signature.callEffect, ← hsig]
      omega

end Reference

namespace Expr

variable {fold : Folding}

mutual

/-- The code of an expression raises the height by the words of its value: by one, or not at all if
    the value is known. -/
theorem ValueCode.frames {exits : Nat → Int → Prop} {expr : Expr} {value : Value} {a b : Nat}
    {height : Int} (hrule : rule.Governs im Γ) (hfits : b < 0x80000000)
    (hwithin : im.Within vars height) :
    expr.ValueCode im fold value a b → expr.HasValue Γ vars →
      (im.frames rule).Through a b exits a height b (height + value.words)
  | .constant _ => by
    intro _
    simp only [Value.words, Int.add_zero]
    exact .refl _ _ _
  | .unary hoperand hop => by
    intro htyped
    refine .trans (hoperand.frames hrule (by omega) hwithin htyped.unary) ?_
    exact hop.replaces (UnaryOp.effect?_primitive _) hwithin.base
  | .binary _ hleft hright hop => by
    intro htyped
    have hle := hright.le
    obtain ⟨hleft', hright'⟩ := htyped.binary
    refine .trans (hleft.frames hrule (by omega) hwithin hleft') ?_
    refine .trans (hright.frames hrule (by omega) hwithin.succ hright') ?_
    exact hop.combines (BinaryOp.effect?_primitive _) hwithin.base
  | .leftDecides _ _ => by
    intro _
    simp only [Value.words, Int.add_zero]
    exact .refl _ _ _
  | .rightRemains _ _ _ hright => fun htyped => hright.frames hrule hfits hwithin htyped.binary.2
  | .rightDecides _ hleft _ hpop => by
    intro htyped
    simp only [Value.words, Int.add_zero]
    refine .trans ?_ (hpop.drops hwithin.base rfl)
    exact hleft.frames hrule (by omega) hwithin htyped.binary.1
  | .leftRemains _ hleft _ _ => fun htyped => hleft.frames hrule hfits hwithin htyped.binary.1
  | .logical _ hleft hshort hright hdone hdecisive => by
    intro htyped
    have hbase := hwithin.base
    have hle := hright.le
    obtain ⟨hleft', hright'⟩ := htyped.binary
    -- Both ways meet at the end, one word higher.
    refine .join ?_ (hdecisive.loadsLiteral hbase)
    refine .trans (hleft.frames hrule (by omega) hwithin hleft') ?_
    refine .trans (hshort.tests (by omega) hbase also_self) ?_
    refine .trans (hright.frames hrule (by omega) hwithin hright') ?_
    exact hdone.skipsTo (by omega) hwithin.succ.base
  | .choiceKnown _ hchosen => by
    intro htyped
    obtain ⟨-, hTrue, hFalse⟩ := htyped.ternary
    refine hchosen.frames hrule hfits hwithin ?_
    split
    next => exact hTrue
    next => exact hFalse
  | .choice hcond hTrue hdone hFalse => by
    intro htyped
    have hbase := hwithin.base
    have hle := hTrue.le
    have hle' := hFalse.le
    obtain ⟨hcond', hTrue', hFalse'⟩ := htyped.ternary
    -- Both branches meet at the end, one word higher.
    refine .join ?_ (hFalse.frames hrule (by omega) hwithin hFalse')
    refine .trans (hcond.frames hrule (by omega) (by omega) hwithin also_self hcond') ?_
    refine .trans (hTrue.frames hrule (by omega) hwithin hTrue') ?_
    exact hdone.skipsTo (by omega) hwithin.succ.base
  | .ref htarget => by
    intro htyped
    obtain ⟨ty, htarget'⟩ := htyped.ref
    exact htarget.frames hrule hwithin htarget'
  | .index htarget hsubscript hload => by
    intro htyped
    obtain ⟨⟨ty, htarget'⟩, hsubscript'⟩ := htyped.index
    refine .trans (htarget.frames hrule hwithin htarget') ?_
    refine .trans (hsubscript.frames hrule (by omega) hwithin.succ hsubscript') ?_
    exact hload.combines rfl hwithin.base
  | .call hargs hinvoke => by
    intro htyped
    have hle := hinvoke.le
    obtain ⟨m, hcallee, hargs', hvoid⟩ := htyped.call
    have hparams := hrule.voidFree.params m
    obtain ⟨-, hcalled⟩ : m = _ ∧ (im.frames rule).Through _ _ exits _ _ _ _ :=
      hinvoke.frames hrule hwithin hcallee rfl
    rw [hvoid] at hcalled
    exact (hargs.frames hrule (by omega) hwithin hparams hargs').trans hcalled
  | .newObject _ _ hheader hsize hnew => by
    intro _
    have hbase := hwithin.base
    refine .trans (hheader.loadsLiteral hbase) ?_
    refine .trans (hsize.loadsLiteral hwithin.succ.base) ?_
    exact hnew.combines rfl hbase
  | .newArray hsize hnew => by
    intro htyped
    refine .trans (hsize.frames hrule (by omega) hwithin htyped.newArray) ?_
    exact hnew.replaces rfl hwithin.base

/-- The code that pushes an expression raises the height by one. -/
theorem PushCode.frames {exits : Nat → Int → Prop} {expr : Expr} {a b : Nat} {height : Int}
    (hrule : rule.Governs im Γ) (hfits : b < 0x80000000) (hwithin : im.Within vars height) :
    expr.PushCode im fold a b → expr.HasValue Γ vars →
      (im.frames rule).Through a b exits a height b (height + 1)
  | .known hvalue hliteral => by
    intro htyped
    refine .trans (hvalue.frames hrule (by omega) hwithin htyped) ?_
    simp only [Value.words, Int.add_zero]
    exact hliteral.loadsLiteral hwithin.base
  | .onStack hvalue => fun htyped => hvalue.frames hrule hfits hwithin htyped

/-- The code of a condition leaves the height as it is, where it jumps and where it goes on. -/
theorem CondCode.frames {exits : Nat → Int → Prop} {expr : Expr} {when : Bool}
    {outcome : Option Bool} {a b t : Nat} {height : Int} (hrule : rule.Governs im Γ)
    (hfits : b < 0x80000000) (htarget : t < 0x80000000) (hwithin : im.Within vars height)
    (hexit : exits t height) :
    expr.CondCode im fold when outcome a b t → expr.HasValue Γ vars →
      (im.frames rule).Through a b exits a height b height
  | .constant _ => fun _ => .refl _ _ _
  | .not hoperand => fun htyped => hoperand.frames hrule hfits htarget hwithin hexit htyped.unary
  | .either _ hleft hright => by
    intro htyped
    have hle := hright.le
    obtain ⟨hleft', hright'⟩ := htyped.binary
    refine .trans (hleft.frames hrule (by omega) htarget hwithin hexit hleft') ?_
    exact hright.frames hrule hfits htarget hwithin hexit hright'
  | .both _ hleft hright => by
    intro htyped
    have hle := hright.le
    obtain ⟨hleft', hright'⟩ := htyped.binary
    -- The left operand leaves for the end of the whole, where the run goes on.
    apply Through.settle
    refine .trans (hleft.frames hrule (by omega) (by omega) hwithin also_self hleft') ?_
    exact hright.frames hrule hfits htarget hwithin (also_of hexit) hright'
  | .test hvalue hjump => by
    intro htyped
    refine .trans (hvalue.frames hrule (by omega) hwithin htyped) ?_
    exact hjump.tests htarget hwithin.base hexit

/-- The code that jumps on a condition leaves the height as it is, where it jumps and where it goes
    on. -/
theorem JumpCode.frames {exits : Nat → Int → Prop} {expr : Expr} {when : Bool} {a b t : Nat}
    {height : Int} (hrule : rule.Governs im Γ) (hfits : b < 0x80000000) (htarget : t < 0x80000000)
    (hwithin : im.Within vars height) (hexit : exits t height) :
    expr.JumpCode im fold when a b t → expr.HasValue Γ vars →
      (im.frames rule).Through a b exits a height b height
  | .always _ hjump => fun _ => .leaves (Nat.le_succ a) (hjump.skips htarget hwithin.base hexit)
  | .never _ => fun _ => .refl _ _ _
  | .test hcond => fun htyped => hcond.frames hrule hfits htarget hwithin hexit htyped

/-- The code of arguments raises the height by the number of parameters. -/
theorem ArgsCode.frames {exits : Nat → Int → Prop} {args : List Expr} {params : List SymbolId}
    {a b : Nat} {height : Int} (hrule : rule.Governs im Γ) (hfits : b < 0x80000000)
    (hwithin : im.Within vars height)
    (hvoid : ∀ p ∈ params, (Γ.sig.typeOf p).avoidsVoid = true) :
    Expr.ArgsCode im fold args a b → Expr.ArgsFit Γ vars args params →
      (im.frames rule).Through a b exits a height b (height + params.length)
  | .nil => by
    intro htyped
    cases htyped
    simp only [List.length_nil, Int.natCast_zero, Int.add_zero]
    exact .refl _ _ _
  | .cons harg hrest => by
    intro htyped
    have hle := hrest.le
    cases htyped with
    | @cons _ _ p params _ harg' hfits' hrest' =>
      have harg' : HasValue Γ vars _ :=
        ⟨_, harg', hfits'.ne_void (hvoid p List.mem_cons_self)⟩
      have hlength : height + ((p :: params).length : Nat) = height + 1 + (params.length : Nat) := by
        rw [List.length_cons]
        omega
      have hvoid' : ∀ q ∈ params, (Γ.sig.typeOf q).avoidsVoid = true :=
        fun q hmem => hvoid q (List.mem_cons_of_mem _ hmem)
      rw [hlength]
      refine .trans (harg.frames hrule (by omega) hwithin harg') ?_
      exact hrest.frames hrule hfits hwithin.succ hvoid' hrest'

end

end Expr

/-- The code that drops words lowers the height by their number, none included. -/
theorem PopCode.frames {count height' : Int} (h : PopCode im count a b) (hcount : 0 ≤ count)
    (hbase : linkDataSize ≤ height) (hheight : height' = height + count) :
    (im.frames rule).Through a b exits a height' b height := by
  cases h with
  | some _ hpop => exact hpop.drops hbase hheight
  | none hnone =>
    have hsame : height' = height := by omega
    rw [hsame]
    exact .refl _ _ _

/-- The value and what the assignment needed below it are gone once it is stored. -/
theorem StoreCode.frames {site : Site} {target : Reference} {ty : Ty} {value : Value}
    {known known' : Dict SymbolId Word} {destination : Destination} {a' b' : Nat}
    (hrule : rule.Governs im Γ) (hwithin : im.Within vars height) (htyped : target.Value Γ vars ty)
    (hdestination : target.DestinationCode im destination a' b')
    (h : StoreCode im site target value known destination a known') :
    (im.frames rule).Through a (a + 1) exits a (height + destination.words + 1) (a + 1) height := by
  have hbase := hwithin.base
  cases h with
  | «variable» hstore =>
    simp only [Destination.words, Int.add_zero]
    cases hdestination with
    | «variable» hbound hregister hslot =>
      exact hstore.stores hbase fun hr => htyped.below_of_base hrule hwithin hbound hregister hslot hr
  | field hother hstore =>
    simp only [Destination.words, Int.add_zero]
    exact hstore.stores hbase fun hr => absurd hr hother
  | otherField hstore =>
    refine hstore.updates rfl hbase ?_
    simp only [Destination.words]
    omega

/-- The test before a loop leaves the height as it is. -/
theorem TestCode.frames {fold : Folding} {cond : Option Expr} {when : Bool} {outcome : Option Bool}
    {t : Nat} (hrule : rule.Governs im Γ) (hfits : b < 0x80000000) (htarget : t < 0x80000000)
    (hwithin : im.Within vars height) (hexit : exits t height)
    (htyped : ∀ expr ∈ cond, expr.HasValue Γ vars) (h : TestCode im fold cond when outcome a b t) :
    (im.frames rule).Through a b exits a height b height := by
  cases h with
  | none => exact .refl _ _ _
  | some hcond => exact hcond.frames hrule hfits htarget hwithin hexit (htyped _ rfl)

/-- The test after a round leaves the height as it is. -/
theorem BackCode.frames {fold : Folding} {cond : Option Expr} {start : Nat}
    (hrule : rule.Governs im Γ) (hfits : b < 0x80000000) (hstart : start < 0x80000000)
    (hwithin : im.Within vars height) (hexit : exits start height)
    (htyped : ∀ expr ∈ cond, expr.HasValue Γ vars) (h : BackCode im fold cond a b start) :
    (im.frames rule).Through a b exits a height b height := by
  cases h with
  | always _ hjump => exact .leaves (Nat.le_succ a) (hjump.skips hstart hwithin.base hexit)
  | never _ => exact .refl _ _ _
  | test htest => exact htest.frames hrule hfits hstart hwithin hexit htyped

end Heights

end SmallJava
