import Mathlib.Data.List.Nodup
import SmallJava.Proofs.Execution.Following
import SmallJava.Proofs.Frame.Height

namespace SmallJava

open Machine Exec

/-- What a call keeps of its caller: its base, its object, and where it goes on. -/
structure Link where
  lb : Int
  ob : Datum
  returnTo : Address

def Link.words (link : Link) : List Datum := [.number link.lb, link.ob, .number link.returnTo]

/-- A running method. Its frame lies on the stack after the static fields and what its callers
    left there. -/
structure Activation where
  statics : List SymbolId
  /-- The words between the static fields and the arguments. -/
  below : List Datum
  params : List SymbolId
  link : Link
  ob : Datum

namespace Activation

variable (act : Activation) (locals : List SymbolId) (env : Valuation)

/-- Where the frame starts. -/
def lb : Nat := act.statics.length + act.below.length + act.params.length

/-- The words of the stack up to the local variables in force. -/
def words (S : Store) : List Datum :=
  act.statics.map S.statics ++ act.below ++ act.params.map env ++ act.link.words ++ locals.map env

/-- The machine in this method before the instruction at `a`, with words above the local
    variables. -/
def machine (S : Store) (temps : List Datum) (a : Address) : Machine where
  stack := act.words locals env S ++ temps
  heap := S.heap
  cp := a
  lb := act.lb
  ob := act.ob
  output := S.output

/-- The machine after this method, which left words on the stack. -/
def resumed (S : Store) (results : List Datum) : Machine where
  stack := act.statics.map S.statics ++ act.below ++ results
  heap := S.heap
  cp := act.link.returnTo
  lb := act.link.lb
  ob := act.link.ob
  output := S.output

variable {act locals env} {S : Store} {temps : List Datum} {i : Nat} {x : SymbolId}

/-- The link data end three words after the start of the frame. -/
theorem length_linked : (act.statics.map S.statics ++ act.below ++ act.params.map env ++
    act.link.words).length = act.lb + 3 := by
  simp only [List.length_append, List.length_map]
  rfl

theorem words_static (hget : act.statics[i]? = some x) :
    (act.words locals env S)[i]? = some (S.statics x) := by
  have hlt := (List.getElem?_eq_some_iff.1 hget).1
  rw [words, List.getElem?_append_left, List.getElem?_append_left, List.getElem?_append_left,
    List.getElem?_append_left, List.getElem?_map, hget]
  · rfl
  all_goals simp only [List.length_append, List.length_map]; omega

theorem words_param (hget : act.params[i]? = some x) :
    (act.words locals env S)[act.statics.length + act.below.length + i]? = some (env x) := by
  have hlt := (List.getElem?_eq_some_iff.1 hget).1
  rw [words, List.getElem?_append_left, List.getElem?_append_left, List.getElem?_append_right]
  · simp [hget]
  all_goals simp only [List.length_append, List.length_map]; omega

theorem words_local (hget : locals[i]? = some x) :
    (act.words locals env S)[act.lb + 3 + i]? = some (env x) := by
  rw [words, List.getElem?_append_right (by rw [length_linked]; omega), length_linked,
    Nat.add_sub_cancel_left, List.getElem?_map, hget]
  rfl

/-- Setting a variable of a list changes the word at its place. -/
theorem map_update {vars : List SymbolId} {f : SymbolId → Datum} (hnodup : vars.Nodup)
    (hget : vars[i]? = some x) (d : Datum) :
    vars.map (Function.update f x d) = (vars.map f).set i d := by
  obtain ⟨hlt, rfl⟩ := List.getElem?_eq_some_iff.1 hget
  rw [hnodup.map_update, if_pos (List.getElem_mem hlt), hnodup.idxOf_getElem]

theorem map_update_of_not_mem {vars : List SymbolId} {f : SymbolId → Datum} (hnew : x ∉ vars)
    (d : Datum) : vars.map (Function.update f x d) = vars.map f := by
  refine List.map_congr_left fun y hmem => Function.update_of_ne ?_ _ _
  rintro rfl
  exact hnew hmem

/-- A static field that changes changes one word of the stack, at its place below all frames. -/
theorem words_setStatic (hnodup : act.statics.Nodup) (hget : act.statics[i]? = some x) (d : Datum) :
    act.words locals env { S with statics := Function.update S.statics x d } =
      (act.words locals env S).set i d := by
  have hlt := (List.getElem?_eq_some_iff.1 hget).1
  simp only [words]
  rw [map_update hnodup hget, List.set_append_left, List.set_append_left, List.set_append_left,
    List.set_append_left]
  all_goals simp only [List.length_append, List.length_map]; omega

/-- A parameter that changes changes one word of the stack, below the base of the frame. -/
theorem words_setParam (hnodup : (act.params ++ locals).Nodup) (hget : act.params[i]? = some x)
    (d : Datum) :
    act.words locals (Function.update env x d) S =
      (act.words locals env S).set (act.statics.length + act.below.length + i) d := by
  obtain ⟨hparams, -, hdisjoint⟩ := List.nodup_append.1 hnodup
  have hnew : x ∉ locals := fun hmem => hdisjoint x (List.mem_of_getElem? hget) x hmem rfl
  have hlt := (List.getElem?_eq_some_iff.1 hget).1
  simp only [words]
  rw [map_update hparams hget, map_update_of_not_mem hnew, List.set_append_left,
    List.set_append_left, List.set_append_right]
  · simp
  all_goals simp only [List.length_append, List.length_map]; omega

/-- A local variable that changes changes one word of the stack, above the three words of the link.
    -/
theorem words_setLocal (hnodup : (act.params ++ locals).Nodup) (hget : locals[i]? = some x)
    (d : Datum) :
    act.words locals (Function.update env x d) S =
      (act.words locals env S).set (act.lb + 3 + i) d := by
  obtain ⟨-, hlocals, hdisjoint⟩ := List.nodup_append.1 hnodup
  have hnew : x ∉ act.params := fun hmem => hdisjoint x hmem x (List.mem_of_getElem? hget) rfl
  simp only [words]
  rw [map_update hlocals hget, map_update_of_not_mem hnew,
    List.set_append_right _ _ (by rw [length_linked]; omega), length_linked, Nat.add_sub_cancel_left]

end Activation

end SmallJava
