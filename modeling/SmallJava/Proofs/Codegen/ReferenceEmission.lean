import SmallJava.Codegen.Expr
import SmallJava.Proofs.Codegen.Steps

namespace SmallJava

open Gen

/-- A load from the slot of a symbol reads the slot that the finished program gives it. -/
theorem Gen.load_emits {s s' : GenState} {r : Register} {x : SymbolId} {d : Int}
    (hslot : s.table.slot? x = some d) (hload : emit (·.load r d) s = .ok () s') :
    s'.here = s.here + 1 ∧ Quiet s s' ∧ Emits s s' [] fun im _ =>
      s.table.signature = im.signature ∧ im.slot? x = some d ∧ im.Holds s.here (.load r d) := by
  obtain ⟨hnext, hquiet, hone⟩ := Emits.one (.load r d) (emit_eq_ok_iff.1 hload)
  refine ⟨hnext, hquiet, ((Emits.look s).trans hone).weaken fun im _ hshape => ?_⟩
  obtain ⟨⟨hsig, hslots⟩, hload⟩ := hshape
  exact ⟨hsig, hslots x d hslot, hload⟩

namespace Reference

/-- The code that pushes the path is emitted in the order of the path. -/
def IsPushed (target : Reference) : Prop :=
  ∀ ⦃s s' : GenState⦄, target.push s = .ok () s' →
    Quiet s s' ∧ Emits s s' [] fun im _ => target.PushCode im s.here s'.here

/-- A name is loaded from its slot, through the base that belongs to its kind. -/
theorem isPushed_ident (annot : Annot) (name : Ident) : (ident annot name).IsPushed := by
  intro s s' hpush
  unfold push at hpush
  obtain ⟨x, _, hname, hpush⟩ := bind_eq_ok_iff.1 hpush
  obtain ⟨hbound, rfl⟩ := bound_eq_ok_iff.1 hname
  obtain ⟨⟨r, d⟩, _, hplace, hpush⟩ := bind_eq_ok_iff.1 hpush
  obtain ⟨hbase, hslot, rfl⟩ := place_eq_ok_iff.1 hplace
  obtain ⟨hnext, hquiet, hload⟩ := load_emits hslot hpush
  refine ⟨hquiet, hload.weaken fun im _ hshape => ?_⟩
  obtain ⟨hsig, hslot, hload⟩ := hshape
  have hbase : (im.signature.kind? x).bind (·.base?) = some r := by rw [← hsig]; exact hbase
  rw [hnext]
  exact .variable hbound hbase hslot hload

section Member

variable {annot : Annot} {owner : Reference} {name : Ident} {x : SymbolId} {s s' : GenState}
  (hbound : name.binding = some x)
include hbound

/-- The length of an array is computed from the array. -/
theorem length_emits (howner : owner.IsPushed) (hkind : s.table.signature.kind? x = some .arrayLength)
    (hpush : (do owner.push; emit (·.primitive .arraylen)) s = .ok () s') :
    Quiet s s' ∧ Emits s s' [] fun im _ => (member annot owner name).PushCode im s.here s'.here := by
  obtain ⟨_, s₁, howner', hlen⟩ := bind_eq_ok_iff.1 hpush
  obtain ⟨hquiet₁, howner⟩ := howner howner'
  obtain ⟨hnext, hquiet₂, hlen⟩ := Emits.one (.primitive .arraylen) (emit_eq_ok_iff.1 hlen)
  refine ⟨hquiet₁.trans hquiet₂,
    ((Emits.look s).trans (howner.trans hlen)).weaken fun im _ hshape => ?_⟩
  obtain ⟨⟨hsig, -⟩, howner, hlen⟩ := hshape
  rw [hnext]
  exact .length hbound (hsig ▸ hkind) howner hlen

variable {cls : SymbolId} {modifiers : Modifiers}

/-- A static field is loaded through the static base, without its owner. -/
theorem staticField_emits (hkind : s.table.signature.kind? x = some (.field cls modifiers))
    (hstatic : modifiers.isStatic = true)
    (hpush : (do emit (·.load .sb (← expectSlot x))) s = .ok () s') :
    Quiet s s' ∧ Emits s s' [] fun im _ => (member annot owner name).PushCode im s.here s'.here := by
  obtain ⟨d, _, hexpect, hload⟩ := bind_eq_ok_iff.1 hpush
  obtain ⟨hslot, rfl⟩ := expectSlot_eq_ok_iff.1 hexpect
  obtain ⟨hnext, hquiet, hload⟩ := load_emits hslot hload
  refine ⟨hquiet, hload.weaken fun im _ hshape => ?_⟩
  obtain ⟨hsig, hslot, hload⟩ := hshape
  rw [hnext]
  exact .staticField hbound (hsig ▸ hkind) hstatic hslot hload

/-- A field of the object itself is loaded through the object base. -/
theorem ownField_emits (hkind : s.table.signature.kind? x = some (.field cls modifiers))
    (hinstance : modifiers.isStatic = false) (hthis : owner.isThis = true)
    (hpush : (do emit (·.load .ob (← expectSlot x))) s = .ok () s') :
    Quiet s s' ∧ Emits s s' [] fun im _ => (member annot owner name).PushCode im s.here s'.here := by
  obtain ⟨d, _, hexpect, hload⟩ := bind_eq_ok_iff.1 hpush
  obtain ⟨hslot, rfl⟩ := expectSlot_eq_ok_iff.1 hexpect
  obtain ⟨hnext, hquiet, hload⟩ := load_emits hslot hload
  refine ⟨hquiet, hload.weaken fun im _ hshape => ?_⟩
  obtain ⟨hsig, hslot, hload⟩ := hshape
  rw [hnext]
  exact .ownField hbound (hsig ▸ hkind) hinstance hthis hslot hload

/-- A field of another object is read by its offset, after the object. -/
theorem field_emits (howner : owner.IsPushed)
    (hkind : s.table.signature.kind? x = some (.field cls modifiers))
    (hinstance : modifiers.isStatic = false) (hthis : owner.isThis = false)
    (hpush : (do
      owner.push
      let slot ← expectSlot x
      emit (·.literal slot)
      emit (·.primitive .fieldref)) s = .ok () s') :
    Quiet s s' ∧ Emits s s' [] fun im _ => (member annot owner name).PushCode im s.here s'.here := by
  obtain ⟨_, s₁, howner', hpush⟩ := bind_eq_ok_iff.1 hpush
  obtain ⟨hquiet₁, howner⟩ := howner howner'
  obtain ⟨d, _, hexpect, hpush⟩ := bind_eq_ok_iff.1 hpush
  obtain ⟨hslot, rfl⟩ := expectSlot_eq_ok_iff.1 hexpect
  rw [hquiet₁.table] at hslot
  obtain ⟨_, s₂, hoffset, hload⟩ := bind_eq_ok_iff.1 hpush
  obtain ⟨hnext₂, hquiet₂, hoffset⟩ := Emits.one (.literal d) (emit_eq_ok_iff.1 hoffset)
  obtain ⟨hnext₃, hquiet₃, hload⟩ := Emits.one (.primitive .fieldref) (emit_eq_ok_iff.1 hload)
  refine ⟨hquiet₁.trans (hquiet₂.trans hquiet₃), ((Emits.look s).trans
    (howner.trans (hoffset.trans hload))).weaken fun im _ hshape => ?_⟩
  obtain ⟨⟨hsig, hslots⟩, howner, hoffset, hload⟩ := hshape
  rw [hnext₂] at hnext₃ hload
  rw [hnext₃]
  exact .field hbound (hsig ▸ hkind) hinstance hthis howner (hslots x d hslot) hoffset hload

end Member

/-- A member is pushed in one of four ways, by what it is and by whose it is. -/
theorem isPushed_member (annot : Annot) {owner : Reference} (name : Ident)
    (howner : owner.IsPushed) : (member annot owner name).IsPushed := by
  intro s s' hpush
  unfold push at hpush
  obtain ⟨x, _, hname, hpush⟩ := bind_eq_ok_iff.1 hpush
  obtain ⟨hbound, rfl⟩ := bound_eq_ok_iff.1 hname
  obtain ⟨_, _, htable, hpush⟩ := bind_eq_ok_iff.1 hpush
  obtain ⟨rfl, rfl⟩ := table_eq_ok_iff.1 htable
  cases hkind : s.table.kind? x with
  | none =>
    rw [hkind] at hpush
    cases hpush
  | some kind =>
    rw [hkind] at hpush
    cases kind with
    | arrayLength => exact length_emits hbound howner hkind hpush
    | field cls modifiers =>
      rw [show s.table.isStatic x = modifiers.isStatic from
        s.table.signature.isStatic_of_field hkind] at hpush
      cases hstatic : modifiers.isStatic with
      | true =>
        rw [if_pos hstatic] at hpush
        exact staticField_emits hbound hkind hstatic hpush
      | false =>
        rw [if_neg (by simp [hstatic])] at hpush
        cases hthis : owner.isThis with
        | true =>
          rw [if_pos hthis] at hpush
          exact ownField_emits hbound hkind hstatic hthis hpush
        | false =>
          rw [if_neg (by simp [hthis])] at hpush
          exact field_emits hbound howner hkind hstatic hthis hpush
    | _ => cases hpush

/-- The code that pushes a path is emitted in the order of the path. -/
theorem push_emits (target : Reference) {s s' : GenState} (hpush : target.push s = .ok () s') :
    Quiet s s' ∧ Emits s s' [] fun im _ => target.PushCode im s.here s'.here := by
  induction target generalizing s s' with
  | this annot =>
    obtain ⟨hnext, hquiet, hone⟩ := Emits.one (.loadAddress .ob 0) (emit_eq_ok_iff.1 hpush)
    refine ⟨hquiet, hone.weaken fun im _ hload => ?_⟩
    rw [hnext]
    exact .this hload
  | ident annot name => exact isPushed_ident annot name hpush
  | member annot owner name ih => exact isPushed_member annot name (fun _ _ => ih) hpush

/-- The code that prepares an assignment leaves the value to be pushed next. -/
theorem destination_emits (target : Reference) {s s' : GenState} {destination : Destination}
    (hdestination : target.destination s = .ok destination s') :
    Quiet s s' ∧
      Emits s s' [] fun im _ => target.DestinationCode im destination s.here s'.here := by
  cases target with
  | this annot => cases hdestination
  | ident annot name =>
    obtain ⟨x, _, hname, hdestination⟩ := bind_eq_ok_iff.1 hdestination
    obtain ⟨hbound, rfl⟩ := bound_eq_ok_iff.1 hname
    obtain ⟨⟨r, d⟩, _, hplace, hdestination⟩ := bind_eq_ok_iff.1 hdestination
    obtain ⟨hbase, hslot, rfl⟩ := place_eq_ok_iff.1 hplace
    obtain ⟨rfl, rfl⟩ := pure_eq_ok_iff.1 hdestination
    refine ⟨Quiet.refl s, (Emits.look s).weaken fun im _ hshape => ?_⟩
    obtain ⟨hsig, hslots⟩ := hshape
    have hbase : (im.signature.kind? x).bind (·.base?) = some r := by rw [← hsig]; exact hbase
    exact .variable hbound hbase (hslots x d hslot)
  | member annot owner name =>
    obtain ⟨x, _, hname, hdestination⟩ := bind_eq_ok_iff.1 hdestination
    obtain ⟨hbound, rfl⟩ := bound_eq_ok_iff.1 hname
    obtain ⟨_, _, htable, hdestination⟩ := bind_eq_ok_iff.1 hdestination
    obtain ⟨rfl, rfl⟩ := table_eq_ok_iff.1 htable
    cases hfield : s.table.isField x with
    | false =>
      rw [if_neg (by simp [hfield])] at hdestination
      cases hdestination
    | true =>
    rw [if_pos hfield] at hdestination
    obtain ⟨d, _, hexpect, hdestination⟩ := bind_eq_ok_iff.1 hdestination
    obtain ⟨hslot, rfl⟩ := expectSlot_eq_ok_iff.1 hexpect
    obtain ⟨cls, modifiers, hkind⟩ := (s.table.signature.isField_iff).1 hfield
    have hstatic : s.table.isStatic x = modifiers.isStatic :=
      s.table.signature.isStatic_of_field hkind
    have hfound : ∀ im : Image, s.table.signature = im.signature →
        im.signature.kind? x = some (.field cls modifiers) := fun im hsig => hsig ▸ hkind
    rw [hstatic] at hdestination
    cases hmodifier : modifiers.isStatic with
    | true =>
      rw [if_pos hmodifier] at hdestination
      obtain ⟨rfl, rfl⟩ := pure_eq_ok_iff.1 hdestination
      refine ⟨Quiet.refl s, (Emits.look s).weaken fun im _ hshape => ?_⟩
      obtain ⟨hsig, hslots⟩ := hshape
      exact .staticField hbound (hfound im hsig) hmodifier (hslots x d hslot)
    | false =>
      rw [if_neg (by simp [hmodifier])] at hdestination
      cases hthis : owner.isThis with
      | true =>
        rw [if_pos hthis] at hdestination
        obtain ⟨rfl, rfl⟩ := pure_eq_ok_iff.1 hdestination
        refine ⟨Quiet.refl s, (Emits.look s).weaken fun im _ hshape => ?_⟩
        obtain ⟨hsig, hslots⟩ := hshape
        exact .ownField hbound (hfound im hsig) hmodifier hthis (hslots x d hslot)
      | false =>
        rw [if_neg (by simp [hthis])] at hdestination
        obtain ⟨_, s₁, howner, hdestination⟩ := bind_eq_ok_iff.1 hdestination
        obtain ⟨hquiet₁, howner⟩ := owner.push_emits howner
        obtain ⟨_, s₂, hoffset, hdestination⟩ := bind_eq_ok_iff.1 hdestination
        obtain ⟨hnext₂, hquiet₂, hoffset⟩ := Emits.one (.literal d) (emit_eq_ok_iff.1 hoffset)
        obtain ⟨rfl, rfl⟩ := pure_eq_ok_iff.1 hdestination
        refine ⟨hquiet₁.trans hquiet₂,
          ((Emits.look s).trans (howner.trans hoffset)).weaken fun im _ hshape => ?_⟩
        obtain ⟨⟨hsig, hslots⟩, howner, hoffset⟩ := hshape
        rw [hnext₂]
        exact .field hbound (hfound im hsig) hmodifier hthis (hslots x d hslot) howner hoffset

end Reference

namespace Gen

/-- The receiver of a call is the owner before the dot, or the object itself. -/
theorem pushReceiver_emits (callee : Reference) {s s' : GenState}
    (hpush : pushReceiver callee s = .ok () s') :
    Quiet s s' ∧ Emits s s' [] fun im _ => callee.ReceiverCode im s.here s'.here := by
  unfold pushReceiver at hpush
  cases callee with
  | member annot owner name =>
    obtain ⟨hquiet, howner⟩ := owner.push_emits hpush
    exact ⟨hquiet, howner.weaken fun im _ howner => .explicit howner⟩
  | this annot =>
    obtain ⟨hnext, hquiet, hone⟩ := Emits.one (.loadAddress .ob 0) (emit_eq_ok_iff.1 hpush)
    refine ⟨hquiet, hone.weaken fun im _ hload => ?_⟩
    rw [hnext]
    exact .implicit (by simp) hload
  | ident annot name =>
    obtain ⟨hnext, hquiet, hone⟩ := Emits.one (.loadAddress .ob 0) (emit_eq_ok_iff.1 hpush)
    refine ⟨hquiet, hone.weaken fun im _ hload => ?_⟩
    rw [hnext]
    exact .implicit (by simp) hload

/-- A call instruction ends up with the address of the method, whether the method was
already placed or not. -/
theorem emitCall_emits (onInstance : Bool) (method : SymbolId) {s s' : GenState}
    (hemit : emit (·.call onInstance method (s.table.slot? method)) s = .ok () s') :
    s'.here = s.here + 1 ∧ Quiet s s' ∧ Emits s s' [] fun im _ =>
      ∃ entry, im.slot? method = some entry ∧
        im.Holds s.here ⟨if onInstance then .calli else .call, 0, .cb, entry⟩ := by
  obtain rfl := emit_eq_ok_iff.1 hemit
  unfold Assembler.call
  cases hslot : s.table.slot? method with
  | some entry =>
    refine ⟨Assembler.here_emit .., Quiet.asm s _, ?_⟩
    refine ((Emits.look s).trans (Emits.emit s _ _ _ _)).weaken fun im _ hshape => ?_
    obtain ⟨⟨-, hslots⟩, hcall⟩ := hshape
    exact ⟨entry, hslots method entry hslot, hcall⟩
  | none => exact ⟨Assembler.here_emit .., Quiet.asm s _, Emits.callLater s _ method⟩

/-- A static method is called directly, any other after its receiver. -/
theorem callMethod_emits (callee : Reference) (method : SymbolId) {s s' : GenState}
    (hbound : callee.binding = some method) (hmethod : s.table.isMethod method = true)
    (hcall : callMethod s.table callee method s = .ok () s') :
    Quiet s s' ∧ Emits s s' [] fun im _ => callee.InvokeCode im method s.here s'.here := by
  obtain ⟨info, hkind⟩ := (s.table.signature.isMethod_iff).1 hmethod
  have hstatic : s.table.isStatic method = info.modifiers.isStatic :=
    s.table.signature.isStatic_of_method hkind
  have hfound : ∀ im : Image, s.table.signature = im.signature →
      im.signature.kind? method = some (.method info) := fun im hsig => hsig ▸ hkind
  unfold callMethod at hcall
  rw [hstatic] at hcall
  cases hmodifier : info.modifiers.isStatic with
  | true =>
    rw [if_pos hmodifier] at hcall
    obtain ⟨hnext, hquiet, hcall⟩ := emitCall_emits false method hcall
    refine ⟨hquiet, ((Emits.look s).trans hcall).weaken fun im _ hshape => ?_⟩
    obtain ⟨⟨hsig, -⟩, entry, hentry, hcall⟩ := hshape
    rw [hnext]
    exact .static hbound (hfound im hsig) hmodifier hentry hcall
  | false =>
    rw [if_neg (by simp [hmodifier])] at hcall
    obtain ⟨_, s₁, hreceiver, hcall⟩ := bind_eq_ok_iff.1 hcall
    obtain ⟨hquiet₁, hreceiver⟩ := pushReceiver_emits callee hreceiver
    rw [← hquiet₁.table] at hcall
    obtain ⟨hnext, hquiet₂, hcall⟩ := emitCall_emits true method hcall
    refine ⟨hquiet₁.trans hquiet₂,
      ((Emits.look s).trans (hreceiver.trans hcall)).weaken fun im _ hshape => ?_⟩
    obtain ⟨⟨hsig, -⟩, hreceiver, entry, hentry, hcall⟩ := hshape
    rw [hnext]
    exact .instance hbound (hfound im hsig) hmodifier hentry hreceiver hcall

end Gen

end SmallJava
