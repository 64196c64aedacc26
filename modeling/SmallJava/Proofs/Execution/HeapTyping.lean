import SmallJava.Proofs.Execution.Evaluation

namespace SmallJava

/-- What a word on the heap is for: a value of a type, the number of elements of an array, or
    nothing that a program gets to see. -/
inductive Cell where
  | value (ty : Ty)
  | length (count : Word)
  | header

/-- What the words on a heap are for, in order. -/
abbrev HeapTyping := List Cell

namespace HeapTyping

/-- The second typing says what the first one says, perhaps of a larger heap. -/
def Extends (W W' : HeapTyping) : Prop := ∀ (i : Nat) cell, W[i]? = some cell → W'[i]? = some cell

theorem Extends.refl (W : HeapTyping) : W.Extends W := fun _ _ h => h

theorem Extends.trans {W W' W'' : HeapTyping} (h : W.Extends W') (h' : W'.Extends W'') :
    W.Extends W'' :=
  fun i cell hcell => h' i cell (h i cell hcell)

theorem Extends.append (W more : HeapTyping) : W.Extends (W ++ more) := by
  intro i cell hcell
  rw [List.getElem?_append_left (List.getElem?_eq_some_iff.1 hcell).1]
  exact hcell

/-- At the place there are the fields of an object of the class. -/
def IsObject (sig : Signature) (W : HeapTyping) (cls : SymbolId) (n : Nat) : Prop :=
  ∀ (i : Nat) x, (sig.instanceFields cls)[i]? = some x → W[n + i]? = some (.value (sig.typeOf x))

/-- At the place there are the elements of an array, after their number. -/
def IsArray (W : HeapTyping) (elem : Ty) (n : Nat) : Prop :=
  ∃ k count, n = k + 1 ∧ W[k]? = some (.length count) ∧
    ∀ i < count.toInt.toNat, W[n + i]? = some (.value elem)

end HeapTyping

/-- The value has the type. Nothing is asked of types that no value is used at. -/
def Datum.HasTy (sig : Signature) (W : HeapTyping) (d : Datum) : Ty → Prop
  | .int => ∃ word, d = .ofWord word
  | .boolean => ∃ b, d = .ofBool b
  | .null => d = .null
  | .object cls => d = .null ∨ ∃ n : Nat, d = .heap n ∧ W.IsObject sig cls n
  | .array elem => d = .null ∨ ∃ n : Nat, d = .heap n ∧ W.IsArray elem n
  | .void | .error | .unsupported => True

namespace Datum.HasTy

variable {sig : Signature} {W W' : HeapTyping} {d : Datum} {ty : Ty}

/-- A value keeps its type while the heap grows. -/
theorem mono (h : d.HasTy sig W ty) (hextends : W.Extends W') : d.HasTy sig W' ty := by
  cases ty with
  | object cls =>
    obtain h | ⟨n, rfl, hobject⟩ := h
    · exact .inl h
    · exact .inr ⟨n, rfl, fun i x hx => hextends _ _ (hobject i x hx)⟩
  | array elem =>
    obtain h | ⟨n, rfl, k, count, rfl, hlength, helems⟩ := h
    · exact .inl h
    · exact .inr ⟨_, rfl, k, count, rfl, hextends _ _ hlength,
        fun i hi => hextends _ _ (helems i hi)⟩
  | _ => exact h

/-- New words have all types. -/
theorem null : Datum.null.HasTy sig W ty := by
  cases ty with
  | int => exact ⟨0, rfl⟩
  | boolean => exact ⟨false, rfl⟩
  | null => rfl
  | object cls => exact .inl rfl
  | array elem => exact .inl rfl
  | _ => trivial

theorem fits {found : Ty} (h : d.HasTy sig W found) (hfits : found.Fits ty) : d.HasTy sig W ty := by
  cases hfits with
  | same => exact h
  | nullObject => exact .inl h
  | nullArray => exact .inl h

end Datum.HasTy

/-- The word is what its cell says. -/
def Cell.Admits (sig : Signature) (W : HeapTyping) (d : Datum) : Cell → Prop
  | value ty => d.HasTy sig W ty
  | length count => d = .ofWord count
  | header => True

theorem Cell.Admits.mono {sig : Signature} {W W' : HeapTyping} {d : Datum} {cell : Cell}
    (h : cell.Admits sig W d) (hextends : W.Extends W') : cell.Admits sig W' d := by
  cases cell with
  | value ty => exact Datum.HasTy.mono h hextends
  | _ => exact h

/-- The heap and the static fields hold what they are for. -/
structure Store.Typed (sig : Signature) (W : HeapTyping) (S : Store) : Prop where
  length : S.heap.length = W.length
  cells : ∀ (i : Nat) cell, W[i]? = some cell → ∃ d, S.heap[i]? = some d ∧ cell.Admits sig W d
  statics : ∀ x cls modifiers, sig.kind? x = some (.field cls modifiers) →
    modifiers.isStatic = true → (S.statics x).HasTy sig W (sig.typeOf x)

/-- The variables hold values of their types. -/
def Valuation.Typed (sig : Signature) (W : HeapTyping) (vars : List SymbolId) (env : Valuation) :
    Prop :=
  ∀ x ∈ vars, (env x).HasTy sig W (sig.typeOf x)

theorem Valuation.Typed.mono {sig : Signature} {W W' : HeapTyping} {vars : List SymbolId}
    {env : Valuation} (h : env.Typed sig W vars) (hextends : W.Extends W') :
    env.Typed sig W' vars :=
  fun x hmem => (h x hmem).mono hextends

/-- Variables stay typed when one of them gets a value of its type. -/
theorem Valuation.Typed.update {sig : Signature} {W : HeapTyping} {vars vars' : List SymbolId}
    {env : Valuation} (h : env.Typed sig W vars) {x : SymbolId} {d : Datum}
    (hd : d.HasTy sig W (sig.typeOf x)) (hvars : ∀ y ∈ vars', y ≠ x → y ∈ vars) :
    Valuation.Typed sig W vars' (Function.update env x d) := by
  intro y hmem
  by_cases heq : y = x
  · rw [heq, Function.update_self]
    exact hd
  · rw [Function.update_of_ne heq]
    exact h y (hvars y hmem heq)

/-- A method without a result is `void`, and only such a method. -/
def HasResult (sig : Signature) (W : HeapTyping) (ty : Ty) : Option Datum → Prop
  | none => ty = .void
  | some d => ty ≠ .void ∧ d.HasTy sig W ty

namespace Exec

variable {α β : Type} {sig : Signature} {W W' : HeapTyping}

/-- In a store of this typing the evaluation makes sense. What it yields satisfies the predicate,
    for a typing of the store that it leaves. -/
def Sound (sig : Signature) (W : HeapTyping) (x : Exec α) (P : HeapTyping → α → Prop) : Prop :=
  ∀ S : Store, S.Typed sig W → (∀ S', x S ≠ .error .stuck S') ∧ ∀ a S', x S = .ok a S' →
    ∃ W' : HeapTyping, W.Extends W' ∧ S'.Typed sig W' ∧ P W' a

variable {x : Exec α} {P Q : HeapTyping → α → Prop}

/-- An evaluation that yields a value in every typed store is sound. -/
theorem sound_of_ok (h : ∀ S : Store, S.Typed sig W → ∃ a S' W', x S = .ok a S' ∧ W.Extends W' ∧
    S'.Typed sig W' ∧ P W' a) : Sound sig W x P := by
  intro S hS
  obtain ⟨a, S', W', hx, h⟩ := h S hS
  rw [hx]
  refine ⟨nofun, ?_⟩
  rintro _ _ ⟨⟩
  exact ⟨W', h⟩

theorem sound_pure {a : α} (ha : P W a) : Sound sig W (pure a) P :=
  sound_of_ok fun S hS => ⟨a, S, W, rfl, .refl W, hS, ha⟩

theorem sound_fault {fault : Fault} : Sound sig W (Exec.fault fault : Exec α) P :=
  fun _ _ => ⟨nofun, nofun⟩

theorem sound_timeout : Sound sig W (throw .timeout : Exec α) P :=
  fun _ _ => ⟨nofun, nofun⟩

/-- Evaluations in a row are sound if the second is, in every later typing in which the first
    yields. -/
theorem Sound.bind {f : α → Exec β} {R : HeapTyping → β → Prop} (hx : Sound sig W x P)
    (hf : ∀ (W' : HeapTyping) a, W.Extends W' → P W' a → Sound sig W' (f a) R) :
    Sound sig W (x >>= f) R := by
  intro S hS
  obtain ⟨hstuck, hok⟩ := hx S hS
  constructor
  · intro S' hrun
    obtain hrun | ⟨a, mid, hrun, hrest⟩ := bind_eq_error_iff.1 hrun
    · exact hstuck S' hrun
    · obtain ⟨W', hextends, hmid, ha⟩ := hok a mid hrun
      exact (hf W' a hextends ha mid hmid).1 S' hrest
  · intro b S' hrun
    obtain ⟨a, mid, hrun, hrest⟩ := bind_eq_ok_iff.1 hrun
    obtain ⟨W', hextends, hmid, ha⟩ := hok a mid hrun
    obtain ⟨W'', hextends', hS', hb⟩ := (hf W' a hextends ha mid hmid).2 b S' hrest
    exact ⟨W'', hextends.trans hextends', hS', hb⟩

/-- What is yielded may be said more weakly, in every later typing. -/
theorem Sound.mono (h : Sound sig W x P)
    (himp : ∀ (W' : HeapTyping) a, W.Extends W' → P W' a → Q W' a) : Sound sig W x Q := by
  intro S hS
  obtain ⟨hstuck, hok⟩ := h S hS
  refine ⟨hstuck, fun a S' hrun => ?_⟩
  obtain ⟨W', hextends, hS', ha⟩ := hok a S' hrun
  exact ⟨W', hextends, hS', himp W' a hextends ha⟩

/-- A look at a static field. -/
theorem sound_static {x cls : SymbolId} {modifiers : Modifiers}
    (hkind : sig.kind? x = some (.field cls modifiers)) (hstatic : modifiers.isStatic = true) :
    Sound sig W (do return (← get).statics x) fun W' d => d.HasTy sig W' (sig.typeOf x) :=
  sound_of_ok fun S hS => ⟨_, S, W, rfl, .refl W, hS, hS.statics x cls modifiers hkind hstatic⟩

/-- A static field may be given a value of its type. -/
theorem sound_setStatic {x : SymbolId} {d : Datum} (hd : d.HasTy sig W (sig.typeOf x)) :
    Sound sig W (modify fun S => { S with statics := Function.update S.statics x d } : Exec Unit)
      fun _ _ => True := by
  refine sound_of_ok fun S hS => ⟨(), _, W, rfl, .refl W,
    ⟨hS.length, hS.cells, fun y cls modifiers hkind hstatic => ?_⟩, trivial⟩
  dsimp only
  by_cases heq : y = x
  · rw [heq, Function.update_self]
    exact hd
  · rw [Function.update_of_ne heq]
    exact hS.statics y cls modifiers hkind hstatic

theorem sound_print {d : Datum} : Sound sig W (print d) fun _ _ => True :=
  sound_of_ok fun _ hS => ⟨(), _, W, rfl, .refl W, ⟨hS.length, hS.cells, hS.statics⟩, trivial⟩

theorem at?_natCast (words : List Datum) (n : Nat) : Machine.at? words (n : Int) = words[n]? := by
  unfold Machine.at?
  rw [if_neg (by omega), Int.toNat_natCast]

/-- What the typing says of a word can be read there. -/
theorem sound_load {n : Nat} {cell : Cell} (hcell : W[n]? = some cell) :
    Sound sig W (load (.heap n)) fun W' d => cell.Admits sig W' d := by
  refine sound_of_ok fun S hS => ?_
  obtain ⟨d, hd, hadmits⟩ := hS.cells n cell hcell
  have hrun : load (.heap n) S = .ok d S := by
    rw [load, bind_of_ok (get_eq_ok_iff.2 ⟨rfl, rfl⟩), at?_natCast, hd]
    rfl
  exact ⟨d, S, W, hrun, .refl W, hS, hadmits⟩

/-- A cell of the heap may be given a value of its type. -/
theorem sound_store {n : Nat} {ty : Ty} {d : Datum} (hcell : W[n]? = some (.value ty))
    (hd : d.HasTy sig W ty) : Sound sig W (store (.heap n) d) fun _ _ => True := by
  refine (sound_load hcell).bind fun W' _ hextends _ => sound_of_ok fun S hS => ?_
  have hcell := hextends _ _ hcell
  refine ⟨(), _, W', rfl, .refl W', ⟨by simpa using hS.length, fun i cell hi => ?_, hS.statics⟩,
    trivial⟩
  obtain ⟨d', hd', hadmits⟩ := hS.cells i cell hi
  dsimp only
  rw [Int.toNat_natCast]
  by_cases heq : n = i
  · subst heq
    obtain rfl := Option.some.inj (hcell.symm.trans hi)
    refine ⟨d, ?_, hd.mono hextends⟩
    rw [List.getElem?_set_self (List.getElem?_eq_some_iff.1 hd').1]
  · exact ⟨d', by rw [List.getElem?_set_ne heq]; exact hd', hadmits⟩

/-- A value of a class is the place of an object, unless it is null, and that is a fault. -/
theorem sound_object {d : Datum} {cls : SymbolId} (hd : d.HasTy sig W (.object cls)) :
    Sound sig W (object d) fun W' d => ∃ n : Nat, d = .heap n ∧ W'.IsObject sig cls n := by
  unfold object
  obtain rfl | ⟨n, rfl, hobject⟩ := hd
  · rw [if_pos rfl]
    exact sound_fault
  · rw [if_neg nofun]
    exact sound_pure ⟨n, rfl, hobject⟩

/-- The length of an array is that of the typing. -/
theorem sound_length {array : Datum} {elem : Ty} (harray : array.HasTy sig W (.array elem)) :
    Sound sig W (length array) fun W' d => ∃ (n : Nat) (count : Word), array = .heap n ∧
      d = .ofWord count ∧ ∀ i < count.toInt.toNat, W'[n + i]? = some (.value elem) := by
  unfold length object
  obtain rfl | ⟨n, rfl, k, count, rfl, hlength, helems⟩ := harray
  · rw [if_pos rfl]
    exact sound_fault.bind (P := fun _ _ => False) fun _ _ _ h => h.elim
  · rw [if_neg nofun]
    change Sound sig W (load ((Datum.heap (k + 1 : Nat)).offset (-1))) _
    have hplace : (Datum.heap (k + 1 : Nat)).offset (-1) = .heap k := by
      simp only [Datum.offset, Datum.heap.injEq]
      omega
    rw [hplace]
    exact (sound_load hlength).mono fun W' d hextends hd =>
      ⟨k + 1, count, rfl, hd, fun i hi => hextends _ _ (helems i hi)⟩

/-- An element of an array can be read and written. -/
theorem sound_element {array index : Datum} {elem : Ty} (harray : array.HasTy sig W (.array elem))
    (hindex : index.HasTy sig W .int) :
    Sound sig W (element array index) fun W' place =>
      ∃ n : Nat, place = .heap n ∧ W'[n]? = some (.value elem) := by
  refine (sound_length harray).bind fun W' _ hextends hlength => ?_
  obtain ⟨n, count, rfl, rfl, helems⟩ := hlength
  obtain ⟨word, rfl⟩ := hindex
  dsimp only [Datum.ofWord]
  split
  next hbounds =>
    obtain ⟨i, hi⟩ := Int.eq_ofNat_of_zero_le hbounds.1
    rw [hi] at hbounds ⊢
    exact sound_pure ⟨n + i, by simp [Datum.offset], helems i (by omega)⟩
  next => exact sound_fault

/-- A new block of words is for what is asked for. -/
theorem sound_alloc {header : List Datum} {words : Int} (cells values : List Cell)
    (hheader : List.Forall₂ (fun d cell => ∀ W, Cell.Admits sig W d cell) header cells)
    (hvalues : ∀ cell ∈ values, ∃ ty, cell = .value ty) (hlength : values.length = words.toNat) :
    Sound sig W (alloc header words) fun W' d => ∃ n : Nat, d = .heap n ∧ n = W.length + cells.length ∧
      (∀ i cell, cells[i]? = some cell → W'[W.length + i]? = some cell) ∧
        ∀ i cell, values[i]? = some cell → W'[n + i]? = some cell := by
  refine sound_of_ok fun S hS => ?_
  have hextends : W.Extends (W ++ cells ++ values) := by
    rw [List.append_assoc]
    exact .append W _
  have hcells := hheader.length_eq
  refine ⟨_, _, W ++ cells ++ values, rfl, hextends, ⟨?_, fun i cell hi => ?_,
    fun x cls modifiers hkind hstatic => (hS.statics x cls modifiers hkind hstatic).mono hextends⟩,
      W.length + cells.length, ?_, rfl, fun i cell hi => ?_, fun i cell hi => ?_⟩
  · simp [hS.length, hcells, hlength]
  · dsimp only
    rw [List.append_assoc] at hi ⊢
    obtain hlt | hge := Nat.lt_or_ge i W.length
    · rw [List.getElem?_append_left hlt] at hi
      rw [List.getElem?_append_left (hS.length ▸ hlt)]
      obtain ⟨d, hd, hadmits⟩ := hS.cells i cell hi
      exact ⟨d, hd, hadmits.mono hextends⟩
    · rw [List.getElem?_append_right hge] at hi
      rw [List.getElem?_append_right (hS.length ▸ hge), hS.length]
      obtain hlt | hge := Nat.lt_or_ge (i - W.length) cells.length
      · rw [List.getElem?_append_left hlt] at hi
        rw [List.getElem?_append_left (hcells ▸ hlt)]
        have hlt' : i - W.length < header.length := hcells ▸ hlt
        refine ⟨header[i - W.length], List.getElem?_eq_getElem hlt', ?_⟩
        obtain ⟨-, rfl⟩ := List.getElem?_eq_some_iff.1 hi
        exact hheader.get hlt' hlt _
      · rw [List.getElem?_append_right hge] at hi
        rw [List.getElem?_append_right (hcells ▸ hge), hcells]
        obtain ⟨hlt, hvalue⟩ := List.getElem?_eq_some_iff.1 hi
        obtain ⟨ty, rfl⟩ := hvalues cell (hvalue ▸ List.getElem_mem hlt)
        exact ⟨.null, by rw [List.getElem?_replicate, if_pos (hlength ▸ hlt)], .null⟩
  · rw [← hcells, ← hS.length]
    rfl
  · obtain ⟨hlt, -⟩ := List.getElem?_eq_some_iff.1 hi
    rw [List.append_assoc, List.getElem?_append_right (Nat.le_add_right _ _), Nat.add_sub_cancel_left,
      List.getElem?_append_left hlt]
    exact hi
  · rw [← List.length_append, List.getElem?_append_right (Nat.le_add_right _ _), Nat.add_sub_cancel_left]
    exact hi

/-- A new array has the type of an array, whatever its size; a negative size is a fault. -/
theorem sound_newArray {size : Datum} {elem : Ty} (hsize : size.HasTy sig W .int) :
    Sound sig W (newArray size) fun W' d => d.HasTy sig W' (.array elem) := by
  obtain ⟨word, rfl⟩ := hsize
  dsimp only [Datum.ofWord, newArray]
  split
  next => exact sound_fault
  next hcount =>
    obtain ⟨count, hcount⟩ := Int.eq_ofNat_of_zero_le (Int.not_lt.1 hcount)
    have hheader : Datum.number count = .ofWord word := by rw [Datum.ofWord, hcount]
    rw [hcount]
    refine (sound_alloc [.length word] (List.replicate count (.value elem))
      (.cons (fun _ => hheader) .nil) ?_ (by simp)).mono ?_
    · intro cell hmem
      exact ⟨elem, List.eq_of_mem_replicate hmem⟩
    · rintro W' d - ⟨n, rfl, rfl, hlength, hvalues⟩
      refine .inr ⟨_, rfl, W.length, word, rfl, hlength 0 _ rfl, fun i hi => hvalues i _ ?_⟩
      rw [List.getElem?_replicate, if_pos (by omega)]

/-- A new object has the type of its class, all fields being zero. -/
theorem sound_newObject {cls : SymbolId} :
    Sound sig W (newObject (sig.instanceFields cls).length) fun W' d => d.HasTy sig W' (.object cls) := by
  refine (sound_alloc [.header, .header]
    ((sig.instanceFields cls).map fun x => .value (sig.typeOf x))
    (.cons (fun _ => trivial) (.cons (fun _ => trivial) .nil)) ?_ (by simp)).mono ?_
  · intro cell hmem
    obtain ⟨x, -, rfl⟩ := List.mem_map.1 hmem
    exact ⟨_, rfl⟩
  · rintro W' d - ⟨n, rfl, -, -, hvalues⟩
    exact .inr ⟨n, rfl, fun i x hx => hvalues i _ (by rw [List.getElem?_map, hx]; rfl)⟩

end Exec

end SmallJava
