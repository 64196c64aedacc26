namespace SmallJava

/-- An abstract account of what instructions do: `ok a s next` says that the instruction at
    `a` may run in state `s`, and that `next` holds of every place that can come after it. -/
structure Flow (σ : Type) where
  ok : Nat → σ → (Nat → σ → Prop) → Prop
  mono : ∀ {a s} {next next' : Nat → σ → Prop}, (∀ b t, next b t → next' b t) → ok a s next →
    ok a s next'

namespace Flow

variable {σ : Type} (flow : Flow σ) (lo hi : Nat)

/-- A set of places between two addresses that is left by the exits only. There is one state
    for each address. -/
structure Region (exits region : Nat → σ → Prop) : Prop where
  bounds : ∀ a s, region a s → lo ≤ a ∧ a < hi
  unique : ∀ a s t, region a s → region a t → s = t
  closed : ∀ a s, region a s → flow.ok a s fun b t => region b t ∨ exits b t

/-- What runs from the place stays between the addresses, except that it may leave by an
    exit. -/
def Stays (exits : Nat → σ → Prop) (a : Nat) (s : σ) : Prop :=
  ∃ region, flow.Region lo hi exits region ∧ region a s

/-- No exit. -/
def Nowhere : Nat → σ → Prop := fun _ _ => False

/-- One more exit. -/
def Also (exits : Nat → σ → Prop) (a : Nat) (s : σ) : Nat → σ → Prop :=
  fun b t => exits b t ∨ b = a ∧ t = s

/-- What runs from the first place gets to the second or leaves by an exit. There need not
    be any code between the addresses. -/
def Through (exits : Nat → σ → Prop) (a : Nat) (s : σ) (b : Nat) (t : σ) : Prop :=
  lo ≤ hi ∧ ((a = b ∧ s = t) ∨ flow.Stays lo hi (Also exits b t) a s)

variable {flow lo hi} {mid lo' hi' : Nat} {exits exits' : Nat → σ → Prop} {a b c : Nat} {s t u : σ}

theorem also_self : Also exits a s a s := .inr ⟨rfl, rfl⟩

theorem also_of {b : Nat} {t : σ} (h : exits a s) : Also exits b t a s := .inl h

namespace Stays

/-- One instruction that may only leave by exits stays where it is. -/
theorem one (hok : flow.ok a s exits) : flow.Stays a (a + 1) exits a s := by
  refine ⟨fun b t => b = a ∧ t = s, ⟨?_, ?_, ?_⟩, rfl, rfl⟩
  · rintro b t ⟨rfl, -⟩
    omega
  · rintro b t u ⟨-, rfl⟩ ⟨-, rfl⟩
    rfl
  · rintro b t ⟨rfl, rfl⟩
    exact flow.mono (fun _ _ => .inr) hok

theorem weaken (h : flow.Stays lo hi exits a s) (himp : ∀ b t, exits b t → exits' b t) :
    flow.Stays lo hi exits' a s := by
  obtain ⟨region, hregion, hin⟩ := h
  exact ⟨region, ⟨hregion.bounds, hregion.unique, fun b t hb =>
    flow.mono (fun c u => Or.imp_right (himp c u)) (hregion.closed b t hb)⟩, hin⟩

theorem widen (h : flow.Stays lo hi exits a s) (hlo : lo' ≤ lo) (hhi : hi ≤ hi') :
    flow.Stays lo' hi' exits a s := by
  obtain ⟨region, hregion, hin⟩ := h
  refine ⟨region, ⟨fun b t hb => ?_, hregion.unique, hregion.closed⟩, hin⟩
  have hbounds := hregion.bounds b t hb
  omega

/-- What leaves by one of the exits may stay behind the rest. -/
theorem join (h : flow.Stays lo mid (Also exits b t) a s) (h' : flow.Stays mid hi exits b t) :
    flow.Stays lo hi exits a s := by
  obtain ⟨first, hfirst, hin⟩ := h
  obtain ⟨second, hsecond, hin'⟩ := h'
  have hstart := (hfirst.bounds a s hin)
  have hend := (hsecond.bounds b t hin')
  refine ⟨fun c u => first c u ∨ second c u, ⟨?_, ?_, ?_⟩, .inl hin⟩
  · rintro c u (hc | hc)
    · have hbounds := hfirst.bounds c u hc
      omega
    · have hbounds := hsecond.bounds c u hc
      omega
  · -- the two parts have no address in common
    rintro c u v (hu | hu) (hv | hv)
    · exact hfirst.unique c u v hu hv
    · have hbounds := hfirst.bounds c u hu
      have hbounds' := hsecond.bounds c v hv
      omega
    · have hbounds := hsecond.bounds c u hu
      have hbounds' := hfirst.bounds c v hv
      omega
    · exact hsecond.unique c u v hu hv
  · rintro c u (hc | hc)
    · refine flow.mono (fun d v hnext => ?_) (hfirst.closed c u hc)
      obtain hnext | hexit | ⟨rfl, rfl⟩ := hnext
      · exact .inl (.inl hnext)
      · exact .inr hexit
      · exact .inl (.inr hin')
    · exact flow.mono (fun d v => Or.imp_left .inr) (hsecond.closed c u hc)

/-- Leading back to the start is no exit. -/
theorem loop (h : flow.Stays lo hi (Also exits a s) a s) : flow.Stays lo hi exits a s := by
  obtain ⟨region, hregion, hin⟩ := h
  refine ⟨region, ⟨hregion.bounds, hregion.unique, fun b t hb => ?_⟩, hin⟩
  refine flow.mono (fun c u hnext => ?_) (hregion.closed b t hb)
  obtain hnext | hexit | ⟨rfl, rfl⟩ := hnext
  · exact .inl hnext
  · exact .inr hexit
  · exact .inl hin

/-- If nothing leaves, every address has a state, which is the right one wherever control
    gets. -/
theorem exists_state [Inhabited σ] (h : flow.Stays lo hi Nowhere a s) :
    ∃ state : Nat → σ, state a = s ∧ ∃ inside : Nat → Prop, inside a ∧
      ∀ b, inside b → lo ≤ b ∧ b < hi ∧
        flow.ok b (state b) fun c u => inside c ∧ state c = u := by
  classical
  obtain ⟨region, hregion, hin⟩ := h
  let state : Nat → σ := fun b => if h : ∃ t, region b t then h.choose else default
  have hstate : ∀ b t, region b t → state b = t := by
    intro b t hb
    have hex : ∃ t, region b t := ⟨t, hb⟩
    have hchosen : state b = hex.choose := dif_pos hex
    rw [hchosen]
    exact hregion.unique b _ t hex.choose_spec hb
  refine ⟨state, hstate a s hin, fun b => ∃ t, region b t, ⟨s, hin⟩, ?_⟩
  rintro b ⟨t, hb⟩
  obtain ⟨hlo, hhi⟩ := hregion.bounds b t hb
  refine ⟨hlo, hhi, ?_⟩
  rw [hstate b t hb]
  refine flow.mono (fun c u hnext => ?_) (hregion.closed b t hb)
  obtain hnext | hexit := hnext
  · exact ⟨⟨u, hnext⟩, hstate c u hnext⟩
  · exact hexit.elim

end Stays

namespace Through

theorem le (h : flow.Through lo hi exits a s b t) : lo ≤ hi := h.1

theorem refl (exits : Nat → σ → Prop) (a : Nat) (s : σ) : flow.Through a a exits a s a s :=
  ⟨Nat.le_refl _, .inl ⟨rfl, rfl⟩⟩

theorem step (hok : flow.ok a s (Also exits b t)) : flow.Through a (a + 1) exits a s b t :=
  ⟨Nat.le_succ _, .inr (.one hok)⟩

/-- What never gets to the end gets there if anywhere. -/
theorem leaves (hle : lo ≤ hi) (h : flow.Stays lo hi exits a s) :
    flow.Through lo hi exits a s b t :=
  ⟨hle, .inr (h.weaken fun _ _ => .inl)⟩

theorem stays (h : flow.Through lo mid exits a s b t) (h' : flow.Stays mid hi exits b t) :
    flow.Stays lo hi exits a s := by
  obtain ⟨hle, ⟨rfl, rfl⟩ | hstays⟩ := h
  · exact h'.widen hle (Nat.le_refl _)
  · exact hstays.join h'

/-- What gets to a place through the first part and further through the second gets through both. -/
theorem trans (h : flow.Through lo mid exits a s b t) (h' : flow.Through mid hi exits b t c u) :
    flow.Through lo hi exits a s c u := by
  obtain ⟨hle, hfirst⟩ := h
  obtain ⟨hle', ⟨rfl, rfl⟩ | hstays⟩ := h'
  · exact ⟨Nat.le_trans hle hle', hfirst.imp_right fun hfirst => hfirst.widen (Nat.le_refl _) hle'⟩
  · refine ⟨Nat.le_trans hle hle', .inr ?_⟩
    obtain ⟨rfl, rfl⟩ | hfirst := hfirst
    · exact hstays.widen hle (Nat.le_refl _)
    · refine Stays.join (hfirst.weaken fun d v hexit => ?_) hstays
      obtain hexit | hend := hexit
      · exact .inl (.inl hexit)
      · exact .inr hend

/-- An exit at the end is no exit. -/
theorem settle (h : flow.Through lo hi (Also exits b t) a s b t) :
    flow.Through lo hi exits a s b t := by
  refine h.imp_right (Or.imp_right fun hstays => hstays.weaken fun c u hexit => ?_)
  exact hexit.elim id .inr

/-- An exit back to the start is no exit. -/
theorem loop (h : flow.Through lo hi (Also exits a s) a s b t) :
    flow.Through lo hi exits a s b t := by
  refine h.imp_right (Or.imp_right fun hstays => Stays.loop (hstays.weaken fun c u hexit => ?_))
  obtain (hexit | hstart) | hend := hexit
  · exact .inl (.inl hexit)
  · exact .inr hstart
  · exact .inl (.inr hend)

/-- What leaves by one of the exits may come back before the end. -/
theorem join (h : flow.Through lo mid (Also exits c u) a s b t)
    (h' : flow.Through mid hi exits c u b t) : flow.Through lo hi exits a s b t := by
  obtain ⟨hle, hfirst⟩ := h
  obtain ⟨hle', hsecond⟩ := h'
  refine ⟨Nat.le_trans hle hle', hfirst.imp_right fun hstays => ?_⟩
  obtain ⟨rfl, rfl⟩ | hsecond := hsecond
  · exact (hstays.weaken fun d v hexit => hexit.elim id .inr).widen (Nat.le_refl _) hle'
  · refine Stays.join (hstays.weaken fun d v hexit => ?_) hsecond
    obtain (hexit | hother) | hend := hexit
    · exact .inl (.inl hexit)
    · exact .inr hother
    · exact .inl (.inr hend)

end Through

end Flow

end SmallJava
