import ClauseResolution.Term.Leaves

/-!
# Scopes of terms

A term is in the scope of the slots below a bound when each of its variables is the
anonymous one, which has no slot, or has a slot below the bound. Its variables are fresh
from a slot on when they lie above all terms in the scope of that slot.
-/

namespace ClauseResolution.Term

/-- Every variable of the term is the anonymous one or has a slot below the bound. -/
def Scoped (t : Term) (top : Nat) : Prop :=
  ∀ v, .var v ∈ t.leaves → v = .anonymous ∨ ∃ slot < top, v.index = some slot

/-- Every variable of the term is the anonymous one or has a slot from `base` on that is
below the bound. -/
def Fresh (t : Term) (base top : Nat) : Prop :=
  ∀ v, .var v ∈ t.leaves → v = .anonymous ∨ ∃ slot, base ≤ slot ∧ slot < top ∧ v.index = some slot

variable {t u : Term} {m n : Nat}

/-- An atom is below every top. -/
theorem scoped_atom (name : String) (top : Nat) : (atom name).Scoped top := by simp [Scoped]

/-- A number is below every top. -/
theorem scoped_number (value : Number) (top : Nat) : (number value).Scoped top := by simp [Scoped]

/-- A variable is below a top when it is anonymous or its slot is. -/
theorem scoped_var {v : Var} {top : Nat} :
    (var v).Scoped top ↔ v = .anonymous ∨ ∃ slot < top, v.index = some slot := by
  simp [Scoped]

/-- A compound term is below a top when its arguments are. -/
theorem scoped_compound {f : String} {as : List Term} {count top : Nat} :
    (compound f as count).Scoped top ↔ ∀ t ∈ as, t.Scoped top := by
  simp only [Scoped, leaves_compound, List.mem_flatMap]
  constructor
  · exact fun h t ht v hv => h v ⟨t, ht, hv⟩
  · rintro h v ⟨t, ht, hv⟩
    exact h t ht v hv

/-- A scope may be widened. -/
theorem Scoped.mono (h : t.Scoped m) (hle : m ≤ n) : t.Scoped n := by
  intro v hv
  rcases h v hv with rfl | ⟨slot, hlt, hslot⟩
  · exact Or.inl rfl
  · exact Or.inr ⟨slot, Nat.lt_of_lt_of_le hlt hle, hslot⟩

/-- The arguments of a term are in its scope. -/
theorem Scoped.of_mem_args (h : u.Scoped n) (ht : t ∈ u.args) : t.Scoped n := by
  cases u with
  | compound functor as count => exact scoped_compound.1 h t ht
  | atom | number | var => simp [args] at ht

/-- The slots of a term are below the bound of its scope. -/
theorem Scoped.slot_lt (h : t.Scoped n) {slot : Nat} (hslot : slot ∈ t.slots) : slot < n := by
  obtain ⟨leaf, hleaf, hslot⟩ := List.mem_filterMap.1 hslot
  cases leaf with
  | var v =>
    rw [slot?] at hslot
    rcases h v hleaf with rfl | ⟨other, hlt, hother⟩
    · cases hslot
    · rwa [Option.some.inj (hslot.symm.trans hother)]
  | atom | number | compound => cases hslot

/-- The slots of a term whose variables are fresh are not below the base. -/
theorem Fresh.le_slot (h : t.Fresh m n) {slot : Nat} (hslot : slot ∈ t.slots) : m ≤ slot := by
  obtain ⟨leaf, hleaf, hslot⟩ := List.mem_filterMap.1 hslot
  cases leaf with
  | var v =>
    rw [slot?] at hslot
    rcases h v hleaf with rfl | ⟨other, hle, _, hother⟩
    · cases hslot
    · rwa [Option.some.inj (hslot.symm.trans hother)]
  | atom | number | compound => cases hslot

/-- Fresh variables are in the scope of their bound. -/
theorem Fresh.scoped (h : t.Fresh m n) : t.Scoped n := by
  intro v hv
  rcases h v hv with rfl | ⟨slot, _, hlt, hslot⟩
  · exact Or.inl rfl
  · exact Or.inr ⟨slot, hlt, hslot⟩

/-- A term without slots has no variable but the anonymous one. -/
theorem Scoped.fresh_of_slots_eq_nil (h : t.Scoped n) (hslots : t.slots = []) (base top : Nat) :
    t.Fresh base top := by
  intro v hv
  rcases h v hv with rfl | ⟨slot, _, hslot⟩
  · exact Or.inl rfl
  · have hmem : slot ∈ t.slots := List.mem_filterMap.2 ⟨.var v, hv, hslot⟩
    rw [hslots] at hmem
    cases hmem

/-- A compound term is fresh when its arguments are. -/
theorem fresh_compound {f : String} {as : List Term} {count base top : Nat} :
    (compound f as count).Fresh base top ↔ ∀ t ∈ as, t.Fresh base top := by
  simp only [Fresh, leaves_compound, List.mem_flatMap]
  constructor
  · exact fun h t ht v hv => h v ⟨t, ht, hv⟩
  · rintro h v ⟨t, ht, hv⟩
    exact h t ht v hv

end ClauseResolution.Term
