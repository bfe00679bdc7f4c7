/-!
# Values grouped by key

Groups keep the values of each key in the order in which they were added. The keys stand
in the order of their first value, also when another key is removed from between them.
-/

namespace ClauseResolution

/-- Values by key. -/
structure Groups (α : Type) where
  /-- Each key with its values. -/
  entries : List (String × List α)

namespace Groups

variable {α : Type}

/-- No groups. -/
def empty : Groups α := ⟨[]⟩

/-- Appends a value to the group of a key, or a new group at the end. -/
def addTo (key : String) (value : α) : List (String × List α) → List (String × List α)
  | [] => [(key, [value])]
  | (own, values) :: entries =>
    if own = key then (own, values ++ [value]) :: entries
    else (own, values) :: addTo key value entries

/-- Adds a value behind the other values of its key. -/
def add (groups : Groups α) (key : String) (value : α) : Groups α :=
  ⟨addTo key value groups.entries⟩

/-- The values of a key. -/
def get (groups : Groups α) (key : String) : List α := (groups.entries.lookup key).getD []

/-- The keys with at least one value. -/
def keys (groups : Groups α) : List String := groups.entries.map Prod.fst

/-- The number of values under all keys. -/
def size (groups : Groups α) : Nat :=
  groups.entries.foldr (fun entry count => entry.2.length + count) 0

/-- Removes the values of a key. -/
def remove (groups : Groups α) (key : String) : Groups α :=
  ⟨groups.entries.filter fun entry => entry.1 != key⟩

/-- A key is looked up in the first group before the others. -/
theorem get_cons (own key : String) (values : List α) (entries : List (String × List α)) :
    get ⟨(own, values) :: entries⟩ key = if key = own then values else get ⟨entries⟩ key := by
  rw [get, List.lookup_cons]
  by_cases h : key = own
  · rw [beq_iff_eq.2 h, if_pos h]
    rfl
  · rw [beq_eq_false_iff_ne.2 h, if_neg h]
    rfl

/-- A value that is added is the last one of its key, and no other key is affected. -/
theorem get_add (groups : Groups α) (key other : String) (value : α) :
    (groups.add key value).get other =
      groups.get other ++ if other = key then [value] else [] := by
  obtain ⟨entries⟩ := groups
  induction entries with
  | nil => exact get_cons key other [value] []
  | cons entry entries ih =>
    obtain ⟨own, values⟩ := entry
    rw [add] at ih ⊢
    rw [addTo, get_cons]
    split
    · next hown =>
      subst hown
      rw [get_cons]
      split <;> simp [*]
    · next hown =>
      rw [get_cons, ih]
      split
      · next hother => simp [hother, hown]
      · rfl

end Groups

end ClauseResolution
