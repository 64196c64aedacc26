namespace SmallJava

/-- A finite map as a list of pairs with distinct keys. The order of the entries
    has no meaning. -/
structure Dict (κ ν : Type) where
  entries : List (κ × ν) := []
  nodup_keys : (entries.map (·.1)).Nodup := by simp

namespace Dict

variable {κ ν : Type}

def empty : Dict κ ν := {}

instance : Inhabited (Dict κ ν) := ⟨empty⟩

/-- Keeps the entries that satisfy `keep`. -/
def filter (dict : Dict κ ν) (keep : κ → ν → Bool) : Dict κ ν where
  entries := dict.entries.filter fun entry => keep entry.1 entry.2
  nodup_keys := dict.nodup_keys.sublist (List.filter_sublist.map _)

variable [DecidableEq κ]

def get? (dict : Dict κ ν) (key : κ) : Option ν :=
  (dict.entries.find? fun entry => entry.1 = key).map (·.2)

def contains (dict : Dict κ ν) (key : κ) : Bool := (dict.get? key).isSome

def erase (dict : Dict κ ν) (key : κ) : Dict κ ν := dict.filter fun entry _ => entry ≠ key

/-- A key that is present gets the new value. -/
def insert (dict : Dict κ ν) (key : κ) (value : ν) : Dict κ ν where
  entries := (key, value) :: (dict.erase key).entries
  nodup_keys := by
    refine List.nodup_cons.2 ⟨?_, (dict.erase key).nodup_keys⟩
    simp [erase, filter]

/-- Later entries win over earlier ones with the same key. -/
def ofList (entries : List (κ × ν)) : Dict κ ν :=
  entries.foldl (fun dict entry => dict.insert entry.1 entry.2) empty

theorem get?_eq_some_iff (dict : Dict κ ν) (key : κ) (value : ν) :
    dict.get? key = some value ↔ (key, value) ∈ dict.entries := by
  obtain ⟨entries, hnodup⟩ := dict
  simp only [get?]
  induction entries with
  | nil => simp
  | cons entry rest ih =>
    obtain ⟨first, held⟩ := entry
    obtain ⟨hnew, hrest⟩ := List.nodup_cons.1 hnodup
    by_cases heq : first = key
    · subst heq
      have hnone : (first, value) ∉ rest := fun hmem => hnew (List.mem_map.2 ⟨_, hmem, rfl⟩)
      simp [hnone, eq_comm]
    · simpa [heq, Ne.symm heq] using ih hrest

@[simp]
theorem get?_empty (key : κ) : (empty : Dict κ ν).get? key = none := rfl

theorem get?_filter (dict : Dict κ ν) (keep : κ → ν → Bool) (key : κ) :
    (dict.filter keep).get? key = (dict.get? key).filter (keep key) := by
  apply Option.ext
  intro value
  rw [get?_eq_some_iff, Option.filter_eq_some_iff, get?_eq_some_iff]
  simp [filter]

theorem get?_erase (dict : Dict κ ν) (key query : κ) :
    (dict.erase key).get? query = if query = key then none else dict.get? query := by
  rw [erase, get?_filter]
  by_cases heq : query = key
  · simp [heq]
  · cases dict.get? query <;> simp [Option.filter, heq]

theorem get?_insert (dict : Dict κ ν) (key query : κ) (value : ν) :
    (dict.insert key value).get? query = if query = key then some value else dict.get? query := by
  by_cases heq : key = query
  · subst heq
    simp [get?, insert]
  · have herase := get?_erase dict key query
    simp only [get?, insert, List.find?_cons, heq, decide_false] at herase ⊢
    simpa [Ne.symm heq] using herase

end Dict

end SmallJava
