import SmallJava.Proofs.Execution.Knowledge

namespace SmallJava

open Machine Exec

namespace Reference

variable {im : Image} {act : Activation} {sc : Scene} {Γ : Context} {deadline start t : Nat}
  {locals : List SymbolId} {next : Int} {W : HeapTyping} {env : Valuation} {S : Store}
  {name : Ident} {x cls : SymbolId} {modifiers : Modifiers} {d : Int} {value : Exec Datum}
  {owner : Exec Datum} {P : Datum → Prop} {a b c : Nat}

section Stores

-- The code before the store leaves the value on the stack.
variable (hvalue : Follows im.fetch deadline t (act.machine locals env S [] a) (value S)
  fun d S' _ m' => P d ∧ m' = act.machine locals env S' [d] b)

include hvalue

/-- The store to the slot of a variable changes the variable in the frame, as the assignment does.
    -/
theorem follows_assignVariable (hhost : act.Hosts im sc Γ deadline start)
    (hframe : im.Frame Γ.params locals next) (hscene : sc.Typed Γ W) (hbound : name.binding = some x)
    (hvar : x ∈ Γ.params ++ locals)
    (hkind : Γ.sig.kind? x = some .localVar ∨ Γ.sig.kind? x = some .param)
    (hslot : im.slot? x = some d) (hstore : im.Holds b (.store .lb d)) :
    Follows im.fetch deadline t (act.machine locals env S [] a) (sc.assign env owner name value S)
      fun env' S' _ m' => (∃ d, P d ∧ env' = Function.update env x d) ∧
        m' = act.machine locals env' S' [] (b + 1) := by
  rw [Scene.assign_variable hbound (hscene.sig.symm ▸ hkind)]
  refine hvalue.bind fun v S' t₁ m₁ _ hpost => ?_
  obtain ⟨hv, rfl⟩ := hpost
  obtain ⟨n, hplace, hget, hwords⟩ := hframe.place hhost.params hvar hslot env S'
  have hbase : ∀ m : Machine, m.lb = act.lb → base .lb m = .ok (.number act.lb) m := by
    intro m hlb
    rw [← hlb]
    rfl
  refine .after (hstore.reach_store [] hbase hplace
    (List.getElem?_eq_some_iff.1 hget).1 (hwords v) rfl rfl) (.pure ⟨⟨v, hv, rfl⟩, rfl⟩)

/-- The store above the base of the stack changes the static field, as the assignment does. -/
theorem follows_assignStatic (hhost : act.Hosts im sc Γ deadline start) (hscene : sc.Typed Γ W)
    (hbound : name.binding = some x) (hkind : im.signature.kind? x = some (.field cls modifiers))
    (hstatic : modifiers.isStatic = true) (hslot : im.slot? x = some d)
    (hstore : im.Holds b (.store .sb d)) :
    Follows im.fetch deadline t (act.machine locals env S [] a) (sc.assign env owner name value S)
      fun env' S' _ m' => env' = env ∧ m' = act.machine locals env S' [] (b + 1) := by
  obtain ⟨i, hget, rfl⟩ := hhost.stores.place_static hkind hstatic hslot
  have hkind' : sc.sig.kind? x = some (.field cls modifiers) := by
    rw [hscene.sig, hhost.sig]
    exact hkind
  rw [Scene.assign_static hbound hkind' hstatic]
  refine hvalue.bind fun v S' t₁ m₁ _ hpost => ?_
  obtain ⟨-, rfl⟩ := hpost
  have hplace : (act.words locals env S')[i]? = some (S'.statics x) := Activation.words_static hget
  refine .after (hstore.reach_store [] (fun _ _ => rfl) (Int.zero_add _)
    (List.getElem?_eq_some_iff.1 hplace).1
    (Activation.words_setStatic hhost.stores.nodup hget v) rfl rfl) (.pure ⟨rfl, rfl⟩)

/-- The store above the base of the object changes a field of this object, as the assignment does.
    -/
theorem follows_assignOwn (hhost : act.Hosts im sc Γ deadline start) (hscene : sc.Typed Γ W)
    (hbound : name.binding = some x) (hkind : Γ.sig.kind? x = some (.field cls modifiers))
    (hstatic : modifiers.isStatic = false) (hinstance : Γ.isStatic = false)
    (hslot : im.slot? x = some d) (hstore : im.Holds b (.store .ob d)) :
    Follows im.fetch deadline t (act.machine locals env S [] a)
      (sc.assign env (pure sc.this) name value S)
      fun env' S' _ m' => env' = env ∧ m' = act.machine locals env S' [] (b + 1) := by
  have hplace := hhost.stores.fields x cls modifiers (hhost.sig ▸ hkind) hstatic
  obtain rfl := Option.some.inj (hslot.symm.trans hplace)
  rw [Scene.assign_field hbound (hscene.sig.symm ▸ hkind) hstatic, pure_bind]
  refine hvalue.bind fun v S' t₁ m₁ _ hpost => ?_
  obtain ⟨-, rfl⟩ := hpost
  rw [Exec.object, if_neg (hscene.this hinstance).1, pure_bind, ← hhost.object hinstance,
    Scene.fieldOffset, hscene.sig, hhost.sig]
  refine (hstore.follows_store []).bind fun _ S'' t₂ m₂ _ hm₂ => ?_
  exact .pure ⟨rfl, hm₂⟩

end Stores

/-- The code of an assignment gives the path its value, and what is known afterwards is right. -/
theorem follows_assign {target : Reference} {destination : Destination} {left : SmallJava.Value}
    {site : Site} {known known' : Dict SymbolId Word} {ty : Ty}
    (hhost : act.Hosts im sc Γ deadline start) (hframe : im.Frame Γ.params locals next)
    (hready : sc.Ready Γ (Γ.params ++ locals) start W env S t)
    (hknows : Γ.Knows (Γ.params ++ locals) env (site.relies known))
    (htarget : target.Value Γ (Γ.params ++ locals) ty)
    (hcode : target.DestinationCode im destination a b)
    (hvalue : ∀ (W' : HeapTyping) S' t' temps,
      sc.Ready Γ (Γ.params ++ locals) start W' env S' t' →
        Follows im.fetch deadline t' (act.machine locals env S' temps b) (value S')
          fun d S'' _ m' => left.Is d ∧ m' = act.machine locals env S'' (temps ++ [d]) c)
    (hstore : StoreCode im site target left known destination c known') :
    Follows im.fetch deadline t (act.machine locals env S [] a) (target.assign sc env value S)
      fun env' S' _ m' =>
        site.Tracks Γ (Γ.params ++ locals) (Γ.params ++ locals) env env' known' ∧
          m' = act.machine locals env' S' [] (c + 1) := by
  have hhere := hvalue W S t [] hready
  have hsame : ∀ env' S' t' m', t ≤ t' →
      env' = env ∧ m' = act.machine locals env S' [] (c + 1) →
        site.Tracks Γ (Γ.params ++ locals) (Γ.params ++ locals) env env' known ∧
          m' = act.machine locals env' S' [] (c + 1) := by
    rintro _ S' t' m' - ⟨rfl, rfl⟩
    exact ⟨.refl hknows, rfl⟩
  cases hcode with
  | «variable» hbound hbase hslot =>
    cases htarget with
    | «variable» hbound' hvar hkind =>
      obtain rfl := Option.some.inj (hbound'.symm.trans hbound)
      obtain rfl := Option.some.inj ((base_of_variable (hhost.sig ▸ hkind)).symm.trans hbase)
      cases hstore with
      | field hother => exact absurd rfl hother
      | «variable» hstore =>
        refine (follows_assignVariable hhere hhost hframe hready.scene hbound hvar hkind hslot
          hstore).mono ?_
        rintro env' S' t' m' - ⟨⟨v, hv, rfl⟩, rfl⟩
        exact ⟨.assign hknows hbound hkind hv, rfl⟩
    | @ownField _ _ _ modifiers hbound' hkind hinstance =>
      obtain rfl := Option.some.inj (hbound'.symm.trans hbound)
      have hkind' := hkind
      rw [hhost.sig] at hkind'
      rw [hkind'] at hbase
      cases hstatic : modifiers.isStatic with
      | true =>
        obtain rfl : Register.sb = _ := by simpa [SymbolKind.base?, hstatic] using hbase
        cases hstore with
        | field _ hstore =>
          exact (follows_assignStatic hhere hhost hready.scene hbound hkind' hstatic hslot
            hstore).mono hsame
      | false =>
        obtain rfl : Register.ob = _ := by simpa [SymbolKind.base?, hstatic] using hbase
        have hinstance := Γ.not_isStatic hinstance hstatic
        cases hstore with
        | field _ hstore =>
          exact (follows_assignOwn hhere hhost hready.scene hbound hkind hstatic hinstance hslot
            hstore).mono hsame
  | staticField hbound hkind hstatic hslot =>
    cases hstore with
    | field _ hstore =>
      exact (follows_assignStatic hhere hhost hready.scene hbound hkind hstatic hslot
        hstore).mono hsame
  | ownField hbound hkind hstatic hthis hslot =>
    have howner := htarget.owner_of_field hbound (hhost.sig ▸ hkind) hstatic
    rw [assign, evalOwner, eval_of_isThis hthis]
    cases hstore with
    | field _ hstore =>
      exact (follows_assignOwn hhere hhost hready.scene hbound (hhost.sig ▸ hkind) hstatic
        (howner.instance_of_isThis hthis) hslot hstore).mono hsame
  | field hbound hkind hstatic _ hslot howner hoffset =>
    have howner' := htarget.owner_of_field hbound (hhost.sig ▸ hkind) hstatic
    obtain rfl := Option.some.inj (hslot.symm.trans (hhost.stores.fields _ _ _ hkind hstatic))
    cases hstore with
    | otherField hstore =>
      rw [assign, evalOwner,
        Scene.assign_field hbound (by rw [hready.scene.sig, hhost.sig]; exact hkind) hstatic]
      refine (howner.follows hhost hframe hready howner').bindReady hready
        (howner'.sound hready.scene hready.env) ?_
      rintro object S' t₁ _ W' hle - hready' - rfl
      refine .after hoffset.reach_literal ?_
      refine (hvalue W' S' (t₁ + 1) _ (hready'.later (Nat.le_succ t₁))).bind ?_
      rintro v S'' t₂ _ - ⟨-, rfl⟩
      rw [Scene.fieldOffset, hready.scene.sig, hhost.sig, ← bind_assoc]
      refine (hstore.follows_fieldupd []).bind fun _ S₃ t₃ m₃ _ hm₃ => ?_
      exact .pure ⟨.refl hknows, hm₃⟩

end Reference

end SmallJava
