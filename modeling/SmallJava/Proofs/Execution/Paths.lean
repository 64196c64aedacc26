import SmallJava.Proofs.Execution.Calls
import SmallJava.Proofs.Execution.Safety

namespace SmallJava

open Machine Exec

/-- Where the program stores its static fields, the fields of its objects and their sizes. -/
structure Image.Stores (im : Image) (statics : List SymbolId) : Prop where
  numbered : ∀ (i : Nat) x, statics[i]? = some x → im.slot? x = some (i : Int)
  listed : ∀ x cls modifiers, im.signature.kind? x = some (.field cls modifiers) →
    modifiers.isStatic = true → x ∈ statics
  fields : ∀ x cls modifiers, im.signature.kind? x = some (.field cls modifiers) →
    modifiers.isStatic = false →
      im.slot? x = some ((im.signature.instanceFields cls).idxOf x : Nat)
  classes : ∀ c info, im.signature.kind? c = some (.cls info) →
    im.slot? c = some ((im.signature.instanceFields c).length : Nat)
  params : ∀ m, (im.signature.paramsOf m).Nodup

/-- Calls that are made after the start do what the scene says. -/
def Image.Answers (im : Image) (statics : List SymbolId) (sc : Scene) (deadline start : Nat) :
    Prop :=
  ∀ m info d, im.signature.kind? m = some (.method info) → im.slot? m = some d →
    ∃ entry : Nat, d = entry ∧ ∀ (act : Activation) (W : HeapTyping) S t this args,
      act.statics = statics → act.params = im.signature.paramsOf m →
      (info.modifiers.isStatic = false → act.ob = this ∧ this ≠ .null ∧
        this.HasTy im.signature W (.object info.owner)) →
      List.Forall₂ (fun d p => d.HasTy im.signature W (im.signature.typeOf p)) args act.params →
      S.Typed im.signature W → start < t →
        Follows im.fetch deadline t (act.machine [] (.ofArgs act.params args) S [] entry)
          (sc.invoke m this args S) fun result S' _ m' => m' = act.resumed S' result.toList

/-- The method runs the program of the image in a scene, from a time on that leaves its loops
    enough rounds until the deadline. -/
structure Activation.Hosts (act : Activation) (im : Image) (sc : Scene) (Γ : Context)
    (deadline start : Nat) : Prop where
  sig : Γ.sig = im.signature
  params : act.params = Γ.params
  object : Γ.isStatic = false → act.ob = sc.this
  stores : im.Stores act.statics
  answers : im.Answers act.statics sc deadline start
  enough : deadline < start + sc.rounds

/-- At this time, everything has its type. -/
structure Scene.Ready (sc : Scene) (Γ : Context) (vars : List SymbolId) (start : Nat)
    (W : HeapTyping) (env : Valuation) (S : Store) (t : Nat) : Prop where
  scene : sc.Typed Γ W
  env : env.Typed Γ.sig W vars
  store : S.Typed Γ.sig W
  started : start ≤ t

theorem Scene.Ready.later {sc : Scene} {Γ : Context} {vars : List SymbolId} {start : Nat}
    {W : HeapTyping} {env : Valuation} {S : Store} {t t' : Nat}
    (h : sc.Ready Γ vars start W env S t) (hle : t ≤ t') : sc.Ready Γ vars start W env S t' where
  scene := h.scene
  env := h.env
  store := h.store
  started := Nat.le_trans h.started hle

/-- The machine does the first part of an evaluation, and then the rest. -/
theorem Follows.bindReady {α β : Type} {fetch : Address → Option Instruction} {deadline t : Nat}
    {m : Machine} {sc : Scene} {Γ : Context} {vars : List SymbolId} {start : Nat} {W : HeapTyping}
    {env : Valuation} {S : Store} {x : Exec α} {f : α → Exec β} {P : α → Store → Nat → Machine → Prop}
    {R : HeapTyping → α → Prop} {Q : β → Store → Nat → Machine → Prop}
    (h : Follows fetch deadline t m (x S) P) (hready : sc.Ready Γ vars start W env S t)
    (hsound : Sound Γ.sig W x R)
    (hf : ∀ a S' t₁ m₁ W', t ≤ t₁ → W.Extends W' → sc.Ready Γ vars start W' env S' t₁ → R W' a →
      P a S' t₁ m₁ → Follows fetch deadline t₁ m₁ (f a S') Q) :
    Follows fetch deadline t m ((x >>= f) S) Q := by
  refine (h.sound hsound hready.store).bind fun a S' t₁ m₁ hle hpost => ?_
  obtain ⟨hpost, W', hextends, hS', ha⟩ := hpost
  exact hf a S' t₁ m₁ W' hle hextends ⟨hready.scene.mono hextends, hready.env.mono hextends, hS',
    Nat.le_trans hready.started hle⟩ ha hpost

/-- What is stored in different places is different. -/
theorem nodup_of_slots {slot? : SymbolId → Option Int} {xs : List SymbolId} {place : Nat → Int}
    (hslots : ∀ (i : Nat) x, xs[i]? = some x → slot? x = some (place i))
    (hplace : ∀ i j, place i = place j → i = j) : xs.Nodup := by
  rw [List.nodup_iff_getElem?_ne_getElem?]
  intro i j hlt hj heq
  have hget := List.getElem?_eq_getElem hj
  have hi := hslots i _ (heq.trans hget)
  rw [hslots j _ hget] at hi
  have hsame := hplace j i (Option.some.inj hi)
  omega

theorem Image.Stores.nodup {im : Image} {statics : List SymbolId} (h : im.Stores statics) :
    statics.Nodup :=
  nodup_of_slots h.numbered fun _ _ heq => Int.ofNat.inj heq

/-- A static field lies on the stack where its slot says. -/
theorem Image.Stores.place_static {im : Image} {statics : List SymbolId} (h : im.Stores statics)
    {x cls : SymbolId} {modifiers : Modifiers} {d : Int}
    (hkind : im.signature.kind? x = some (.field cls modifiers)) (hstatic : modifiers.isStatic = true)
    (hslot : im.slot? x = some d) : ∃ i : Nat, statics[i]? = some x ∧ d = i := by
  obtain ⟨i, hget⟩ := List.mem_iff_getElem?.1 (h.listed x cls modifiers hkind hstatic)
  exact ⟨i, hget, Option.some.inj (hslot.symm.trans (h.numbered i x hget))⟩

namespace Image.Frame

variable {im : Image} {params locals : List SymbolId} {next : Int}

/-- Parameters lie below the link data and local variables above. -/
theorem nodup (h : im.Frame params locals next) : (params ++ locals).Nodup := by
  refine List.nodup_append.2 ⟨nodup_of_slots h.params fun i j heq => by omega,
    nodup_of_slots h.locals fun i j heq => by omega, ?_⟩
  rintro x hmem _ hmem' rfl
  obtain ⟨i, hget⟩ := List.mem_iff_getElem?.1 hmem
  obtain ⟨j, hget'⟩ := List.mem_iff_getElem?.1 hmem'
  have hlt := (List.getElem?_eq_some_iff.1 hget).1
  have heq := h.params i x hget
  rw [h.locals j x hget'] at heq
  have heq := Option.some.inj heq
  simp only [linkDataSize] at heq
  omega

/-- Where a variable lies on the stack. -/
theorem place {act : Activation} (h : im.Frame params locals next) (hparams : act.params = params)
    {x : SymbolId} {d : Int} (hmem : x ∈ params ++ locals) (hslot : im.slot? x = some d)
    (env : Valuation) (S : Store) :
    ∃ n : Nat, act.lb + d = n ∧ (act.words locals env S)[n]? = some (env x) ∧
      ∀ v, act.words locals (Function.update env x v) S = (act.words locals env S).set n v := by
  subst hparams
  obtain hmem | hmem := List.mem_append.1 hmem
  · obtain ⟨i, hget⟩ := List.mem_iff_getElem?.1 hmem
    have hlt := (List.getElem?_eq_some_iff.1 hget).1
    have hplace := h.params i x hget
    obtain rfl := Option.some.inj (hslot.symm.trans hplace)
    refine ⟨act.statics.length + act.below.length + i, ?_, Activation.words_param hget,
      Activation.words_setParam h.nodup hget⟩
    simp only [Activation.lb]
    omega
  · obtain ⟨i, hget⟩ := List.mem_iff_getElem?.1 hmem
    have hplace := h.locals i x hget
    obtain rfl := Option.some.inj (hslot.symm.trans hplace)
    refine ⟨act.lb + 3 + i, ?_, Activation.words_local hget, Activation.words_setLocal h.nodup hget⟩
    simp only [linkDataSize]
    omega

end Image.Frame

namespace Reference

variable {im : Image} {act : Activation} {sc : Scene} {Γ : Context} {deadline start t : Nat}
  {locals : List SymbolId} {next : Int} {W : HeapTyping} {env : Valuation} {S : Store}
  {temps : List Datum} {a b : Nat}

theorem eval_of_isThis {ref : Reference} (hthis : ref.isThis = true) :
    ref.eval sc env = pure sc.this := by
  cases ref with
  | this => rfl
  | _ => cases hthis

theorem Value.instance_of_isThis {vars : List SymbolId} {ref : Reference} {ty : Ty}
    (h : ref.Value Γ vars ty) (hthis : ref.isThis = true) : Γ.isStatic = false := by
  cases h with
  | this hinstance => exact hinstance
  | _ => cases hthis

/-- A field of the current object, which is there. -/
theorem follows_ownField {x cls : SymbolId} {modifiers : Modifiers} {name : Ident} {d : Int}
    (hhost : act.Hosts im sc Γ deadline start) (hscene : sc.Typed Γ W) (hbound : name.binding = some x)
    (hkind : Γ.sig.kind? x = some (.field cls modifiers)) (hstatic : modifiers.isStatic = false)
    (hinstance : Γ.isStatic = false) (hslot : im.slot? x = some d) (hload : im.Holds a (.load .ob d)) :
    Follows im.fetch deadline t (act.machine locals env S temps a)
      (sc.value env (pure sc.this) name S)
      fun v S' _ m' => m' = act.machine locals env S' (temps ++ [v]) (a + 1) := by
  have hplace := hhost.stores.fields x cls modifiers (hhost.sig ▸ hkind) hstatic
  obtain rfl := Option.some.inj (hslot.symm.trans hplace)
  rw [Scene.value_field hbound (hscene.sig.symm ▸ hkind) hstatic, pure_bind, Exec.object,
    if_neg (hscene.this hinstance).1, pure_bind, ← hhost.object hinstance, Scene.fieldOffset,
    hscene.sig, hhost.sig]
  exact hload.follows_load

/-- A static field, whatever stands before it. -/
theorem follows_staticField {x cls : SymbolId} {modifiers : Modifiers} {name : Ident} {d : Int}
    {owner : Exec Datum} (hhost : act.Hosts im sc Γ deadline start) (hscene : sc.Typed Γ W)
    (hbound : name.binding = some x) (hkind : im.signature.kind? x = some (.field cls modifiers))
    (hstatic : modifiers.isStatic = true) (hslot : im.slot? x = some d)
    (hload : im.Holds a (.load .sb d)) :
    Follows im.fetch deadline t (act.machine locals env S temps a) (sc.value env owner name S)
      fun v S' _ m' => m' = act.machine locals env S' (temps ++ [v]) (a + 1) := by
  obtain ⟨i, hget, rfl⟩ := hhost.stores.place_static hkind hstatic hslot
  have hkind' : sc.sig.kind? x = some (.field cls modifiers) := by
    rw [hscene.sig, hhost.sig]
    exact hkind
  rw [Scene.value_static hbound hkind' hstatic]
  exact .after (hload.reach_load (fun _ _ => rfl) (Int.zero_add _) (Activation.words_static hget))
    (.pure rfl)

theorem base_of_variable {kind : Option SymbolKind} (h : kind = some .localVar ∨ kind = some .param) :
    kind.bind (·.base?) = some .lb := by
  obtain rfl | rfl := h <;> rfl

/-- The code that pushes a path yields its value. -/
theorem PushCode.follows {ref : Reference} {ty : Ty} (hhost : act.Hosts im sc Γ deadline start)
    (hframe : im.Frame Γ.params locals next)
    (hready : sc.Ready Γ (Γ.params ++ locals) start W env S t) (hcode : ref.PushCode im a b)
    (htyped : ref.Value Γ (Γ.params ++ locals) ty) :
    Follows im.fetch deadline t (act.machine locals env S temps a) (ref.eval sc env S)
      fun d S' _ m' => m' = act.machine locals env S' (temps ++ [d]) b := by
  induction hcode generalizing ty with
  | this hload =>
    cases htyped with
    | this hinstance => exact .after hload.reach_loadAddress (.pure (by rw [hhost.object hinstance]))
  | «variable» hbound hbase hslot hload =>
    cases htyped with
    | «variable» hbound' hvar hkind =>
      obtain rfl := Option.some.inj (hbound'.symm.trans hbound)
      obtain ⟨n, hplace, hget, -⟩ := hframe.place hhost.params hvar hslot env S
      obtain rfl := Option.some.inj ((base_of_variable (hhost.sig ▸ hkind)).symm.trans hbase)
      rw [eval, Scene.value_variable hbound (hready.scene.sig.symm ▸ hkind)]
      refine .after (hload.reach_load (fun m hlb => ?_) hplace hget) (.pure rfl)
      rw [← hlb]
      rfl
    | @ownField _ _ _ modifiers hbound' hkind hinstance =>
      obtain rfl := Option.some.inj (hbound'.symm.trans hbound)
      have hkind' := hkind
      rw [hhost.sig] at hkind'
      rw [hkind'] at hbase
      cases hstatic : modifiers.isStatic with
      | true =>
        obtain rfl : Register.sb = _ := by simpa [SymbolKind.base?, hstatic] using hbase
        exact follows_staticField hhost hready.scene hbound hkind' hstatic hslot hload
      | false =>
        obtain rfl : Register.ob = _ := by simpa [SymbolKind.base?, hstatic] using hbase
        exact follows_ownField hhost hready.scene hbound hkind hstatic
          (Γ.not_isStatic hinstance hstatic) hslot hload
  | length hbound hkind _ hlen ih =>
    obtain ⟨elem, howner⟩ := htyped.owner_of_length hbound (hhost.sig ▸ hkind)
    rw [eval, Scene.value_length hbound (by rw [hready.scene.sig, hhost.sig]; exact hkind)]
    refine (ih howner).bind fun d S' t' m' _ hm' => ?_
    rw [hm']
    exact hlen.follows_arraylen
  | staticField hbound hkind hstatic hslot hload =>
    exact follows_staticField hhost hready.scene hbound hkind hstatic hslot hload
  | @ownField _ owner _ _ _ _ _ _ hbound hkind hstatic hthis hslot hload =>
    have howner := htyped.owner_of_field hbound (hhost.sig ▸ hkind) hstatic
    rw [eval, eval_of_isThis hthis]
    exact follows_ownField hhost hready.scene hbound (hhost.sig ▸ hkind) hstatic
      (howner.instance_of_isThis hthis) hslot hload
  | field hbound hkind hstatic _ _ hslot hoffset hload ih =>
    have howner := htyped.owner_of_field hbound (hhost.sig ▸ hkind) hstatic
    rw [eval, Scene.value_field hbound (by rw [hready.scene.sig, hhost.sig]; exact hkind) hstatic]
    refine (ih howner).bind fun d S' t' m' _ hm' => ?_
    rw [hm']
    refine .after hoffset.reach_literal ?_
    obtain rfl := Option.some.inj (hslot.symm.trans (hhost.stores.fields _ _ _ hkind hstatic))
    rw [Scene.fieldOffset, hready.scene.sig, hhost.sig]
    exact hload.follows_fieldref

/-- The object of a call is pushed. -/
theorem ReceiverCode.follows {callee : Reference} {m : SymbolId} {info : MethodInfo}
    (hhost : act.Hosts im sc Γ deadline start) (hframe : im.Frame Γ.params locals next)
    (hready : sc.Ready Γ (Γ.params ++ locals) start W env S t) (hcode : callee.ReceiverCode im a b)
    (htyped : callee.Callee Γ (Γ.params ++ locals) m) (hkind : Γ.sig.kind? m = some (.method info))
    (hstatic : info.modifiers.isStatic = false) :
    Follows im.fetch deadline t (act.machine locals env S temps a) (callee.evalOwner sc env S)
      fun d S' _ m' => m' = act.machine locals env S' (temps ++ [d]) b := by
  cases hcode with
  | explicit howner =>
    exact howner.follows hhost hframe hready (htyped.owner_of_instance hkind hstatic)
  | implicit hcallee hload =>
    cases htyped with
    | @own _ _ _ info' hbound hkind' howner hinstance =>
      obtain rfl : info = info' := by simpa using hkind.symm.trans hkind'
      have hinstance := Γ.not_isStatic hinstance hstatic
      exact .after hload.reach_loadAddress (.pure (by rw [hhost.object hinstance]))
    | static => exact absurd rfl (hcallee _ _ _)
    | «instance» => exact absurd rfl (hcallee _ _ _)

/-- What a call does once the called method has its frame. -/
theorem follows_answer {m : SymbolId} {info : MethodInfo} {d : Int}
    (hhost : act.Hosts im sc Γ deadline start) (hkind : Γ.sig.kind? m = some (.method info))
    (hslot : im.slot? m = some d) :
    ∃ entry : Nat, d = entry ∧ ∀ {W : HeapTyping} {S : Store} {t : Nat} {this ob : Datum}
      {args : List Datum} {a : Address}, S.Typed Γ.sig W → start < t →
      (info.modifiers.isStatic = false → ob = this ∧ this ≠ .null ∧
        this.HasTy Γ.sig W (.object info.owner)) →
      List.Forall₂ (fun d p => d.HasTy Γ.sig W (Γ.sig.typeOf p)) args (Γ.sig.paramsOf m) →
        Follows im.fetch deadline t
          ((act.callee locals env temps (Γ.sig.paramsOf m) ob a).machine []
            (.ofArgs (Γ.sig.paramsOf m) args) S [] entry)
          (sc.invoke m this args S)
          fun result S' _ m' => m' = act.machine locals env S' (temps ++ result.toList) a := by
  rw [hhost.sig] at hkind ⊢
  obtain ⟨entry, heq, hanswer⟩ := hhost.answers m info d hkind hslot
  refine ⟨entry, heq, fun {W S t this ob args a} hS hlater hobject hargs => ?_⟩
  refine (hanswer (act.callee locals env temps (im.signature.paramsOf m) ob a) W S t this args rfl rfl
    hobject hargs hS hlater).mono fun result S' _ m' _ hm' => ?_
  rw [hm', Activation.resumed_callee]

/-- A call leaves the result of the method in place of the arguments. -/
theorem InvokeCode.follows {callee : Reference} {m method : SymbolId} {args : List Datum}
    (hhost : act.Hosts im sc Γ deadline start) (hframe : im.Frame Γ.params locals next)
    (hready : sc.Ready Γ (Γ.params ++ locals) start W env S t) (hcode : callee.InvokeCode im method a b)
    (htyped : callee.Callee Γ (Γ.params ++ locals) m)
    (hargs : List.Forall₂ (fun d p => d.HasTy Γ.sig W (Γ.sig.typeOf p)) args (Γ.sig.paramsOf m)) :
    Follows im.fetch deadline t (act.machine locals env S (temps ++ args) a)
      (sc.call (callee.evalOwner sc env) callee.binding args S)
      fun result S' _ m' => m' = act.machine locals env S' (temps ++ result.toList) b := by
  obtain ⟨hbinding, -⟩ := htyped.kind
  have hnodup : (Γ.sig.paramsOf m).Nodup := hhost.sig ▸ hhost.stores.params m
  have hlength := hargs.length_eq
  rw [hbinding]
  cases hcode with
  | static hbound hkind hstatic hentry hcall =>
    obtain rfl := Option.some.inj (hbinding.symm.trans hbound)
    rw [← hhost.sig] at hkind
    obtain ⟨entry, rfl, hanswer⟩ := follows_answer hhost hkind hentry
    rw [Scene.call_static (hready.scene.sig.symm ▸ hkind) hstatic]
    refine .after (hcall.reach_call hnodup hlength) ?_
    exact hanswer hready.store (Nat.lt_succ_of_le hready.started) (by simp [hstatic]) hargs
  | «instance» hbound hkind hstatic hentry hreceiver hcall =>
    obtain rfl := Option.some.inj (hbinding.symm.trans hbound)
    rw [← hhost.sig] at hkind
    obtain ⟨entry, rfl, hanswer⟩ := follows_answer hhost hkind hentry
    rw [Scene.call_instance (hready.scene.sig.symm ▸ hkind) hstatic]
    refine (hreceiver.follows hhost hframe hready htyped hkind hstatic).bindReady hready
      (htyped.sound_evalOwner hready.scene hready.env hkind hstatic)
      fun ob S' t₁ m₁ W' _ hle hready' hob hm₁ => ?_
    rw [hm₁]
    refine hcall.follows_callInstance hnodup hlength fun hnull => ?_
    exact hanswer hready'.store (Nat.lt_succ_of_le hready'.started) (fun _ => ⟨rfl, hnull, hob⟩)
      (hargs.imp fun d p hd => hd.mono hle)

end Reference

end SmallJava
