import ClauseResolution.Substitution.Store
import Mathlib.Data.List.Perm.Subperm
import Mathlib.Order.MinMax

/-!
# Substitutions as chains of bindings

The meaning of a context is the list of bindings on its chain, together with the first
free slot. This list depends only on the entries below the stamp, so it is untouched by
later bindings and by dropping entries at or above the stamp. Two contexts of any two
stores that have the same list answer every look-up alike.
-/

namespace ClauseResolution

/-- A substitution by itself, apart from the store that holds it. -/
structure Substitution where
  /-- The bindings, the newest first. -/
  bindings : List (Nat × Occurrence)
  /-- The first slot that is not allocated. -/
  top : Nat
  deriving DecidableEq

namespace Store

variable {σ τ υ : Store} {c d : Context} {m n stamp : Nat}

/-- The bindings on the chain from a stamp, the newest first. -/
def chain (σ : Store) : Nat → List (Nat × Occurrence)
  | 0 => []
  | stamp + 1 =>
    if h : stamp < σ.entries.size then
      let binding := σ.entries[stamp]
      (binding.slot, binding.value) :: chain σ (min binding.parent stamp)
    else []
termination_by stamp => stamp

/-- The substitution a context denotes. -/
def substitution (σ : Store) (c : Context) : Substitution := ⟨σ.chain c.stamp, c.top⟩

/-- A look-up along the chain is a look-up in the list of its bindings. -/
theorem lookupFrom_eq_lookup (σ : Store) (slot stamp : Nat) :
    σ.lookupFrom slot stamp = (σ.chain stamp).lookup slot := by
  fun_induction lookupFrom σ slot stamp with
  | case1 => simp [chain]
  | case2 stamp h binding hslot =>
    rw [chain, dif_pos h]
    rw [List.lookup_cons, beq_iff_eq.2 hslot.symm]
  | case3 stamp h binding hslot ih =>
    have hne : (slot == σ.entries[stamp].slot) = false := by
      simpa using fun heq => hslot heq.symm
    rw [chain, dif_pos h, ih]
    rw [List.lookup_cons, hne]
  | case4 stamp h => rw [chain, dif_neg h, List.lookup_nil]

/-- The value at a slot is found in the list of bindings. -/
theorem valueAt_eq_lookup (σ : Store) (c : Context) (slot : Nat) :
    σ.valueAt c slot = (σ.substitution c).bindings.lookup slot := lookupFrom_eq_lookup ..

/-- Contexts that denote the same substitution bind the same values. -/
theorem valueAt_eq_of_substitution_eq (h : σ.substitution c = τ.substitution d) (slot : Nat) :
    σ.valueAt c slot = τ.valueAt d slot := by
  rw [valueAt_eq_lookup, valueAt_eq_lookup, h]

/-- Every step along a chain goes to a smaller stamp. -/
theorem length_chain_le (σ : Store) (stamp : Nat) : (σ.chain stamp).length ≤ stamp := by
  fun_induction chain σ stamp with
  | case1 => simp
  | case2 stamp h binding ih =>
    rw [List.length_cons]
    omega
  | case3 => simp

/-- The slots that a context binds are slots on its chain. -/
theorem mem_slots_of_valueAt {slot : Nat} {value : Occurrence}
    (h : σ.valueAt c slot = some value) : slot ∈ (σ.chain c.stamp).map Prod.fst := by
  rw [valueAt_eq_lookup] at h
  obtain ⟨newer, older, hchain, _⟩ := List.lookup_eq_some_iff.1 h
  change σ.chain c.stamp = _ at hchain
  simp [hchain]

/-- No more slots are bound than the stamp says. -/
theorem length_le_stamp_of_bound {slots : List Nat} (hnodup : slots.Nodup)
    (hbound : ∀ slot ∈ slots, (σ.valueAt c slot).isSome) : slots.length ≤ c.stamp := by
  have hsubset : slots ⊆ (σ.chain c.stamp).map Prod.fst := by
    intro slot hslot
    obtain ⟨value, hvalue⟩ := Option.isSome_iff_exists.1 (hbound slot hslot)
    exact mem_slots_of_valueAt hvalue
  have hlength := (hnodup.subperm hsubset).length_le
  rw [List.length_map] at hlength
  exact hlength.trans (σ.length_chain_le c.stamp)

/-- Two stores hold the same entries below a position. -/
def AgreeBelow (σ τ : Store) (n : Nat) : Prop := ∀ i < n, σ.entries[i]? = τ.entries[i]?

namespace AgreeBelow

/-- A store agrees with itself below every stamp. -/
theorem refl (σ : Store) (n : Nat) : σ.AgreeBelow σ n := fun _ _ => rfl

/-- Agreement below a stamp is transitive. -/
theorem trans (h : σ.AgreeBelow τ n) (h' : τ.AgreeBelow υ n) : σ.AgreeBelow υ n :=
  fun i hi => (h i hi).trans (h' i hi)

/-- Stores that agree below a stamp agree below every smaller one. -/
theorem mono (h : σ.AgreeBelow τ n) (hmn : m ≤ n) : σ.AgreeBelow τ m :=
  fun i hi => h i (by omega)

/-- A chain lies below its stamp. -/
theorem chain_eq (h : σ.AgreeBelow τ n) (hstamp : stamp ≤ n) : σ.chain stamp = τ.chain stamp := by
  fun_induction chain σ stamp with
  | case1 => rw [chain]
  | case2 stamp hlt binding ih =>
    have hentry : τ.entries[stamp]? = some binding := by
      rw [← h stamp (by omega), Array.getElem?_eq_getElem hlt]
    obtain ⟨hlt', heq⟩ := Array.getElem?_eq_some_iff.1 hentry
    rw [chain, dif_pos hlt', heq, ih (by omega)]
  | case3 stamp hge =>
    have hentry : τ.entries[stamp]? = none := by
      rw [← h stamp (by omega), Array.getElem?_eq_none (by omega)]
    have hge' : ¬ stamp < τ.entries.size := by
      have := Array.getElem?_eq_none_iff.1 hentry
      omega
    rw [chain, dif_neg hge']

/-- Stores that agree below a stamp give its contexts the same meaning. -/
theorem substitution_eq (h : σ.AgreeBelow τ n) (hstamp : c.stamp ≤ n) :
    σ.substitution c = τ.substitution c := by
  rw [substitution, substitution, h.chain_eq hstamp]

end AgreeBelow

/-- A new binding leaves the entries before it alone. -/
theorem agreeBelow_push (σ : Store) (binding : Binding) :
    σ.AgreeBelow (σ.push binding).1 σ.size := by
  intro i hi
  rw [push, Array.getElem?_push_lt hi, Array.getElem?_eq_getElem hi]

/-- Dropping entries leaves those before the mark alone. -/
theorem agreeBelow_truncate (σ : Store) (mark : Nat) : σ.AgreeBelow (σ.truncate mark) mark := by
  intro i hi
  rw [truncate, ← Array.getElem?_toList, ← Array.getElem?_toList, Array.toList_shrink,
    List.getElem?_take_of_lt hi]

/-- Pushing a binding makes a store larger by one. -/
@[simp] theorem size_push (σ : Store) (binding : Binding) :
    (σ.push binding).1.size = σ.size + 1 := by
  simp [push, size]

/-- A store that is truncated ends at the mark, or before it where it was shorter. -/
@[simp] theorem size_truncate (σ : Store) (mark : Nat) :
    (σ.truncate mark).size = min mark σ.size := by
  simp [truncate, size]

/-- The chain of a new entry is its binding before the chain of its parent. -/
theorem chain_push (σ : Store) (binding : Binding) (hparent : binding.parent ≤ σ.size) :
    (σ.push binding).1.chain (σ.size + 1) =
      (binding.slot, binding.value) :: σ.chain binding.parent := by
  have hlt : σ.size < (σ.push binding).1.entries.size := by
    have := σ.size_push binding
    rw [size] at this
    omega
  rw [chain, dif_pos hlt]
  have hentry : (σ.push binding).1.entries[σ.size] = binding := by simp [push, size]
  simp only [hentry, min_eq_left hparent, ((σ.agreeBelow_push binding).chain_eq hparent).symm]

end Store

namespace Substitution

/-- A store that holds the bindings of one substitution and nothing else. -/
def storeOf : List (Nat × Occurrence) → Store
  | [] => .empty
  | (slot, value) :: rest => ((storeOf rest).push ⟨slot, value, rest.length⟩).1

/-- The store of a substitution. -/
def store (s : Substitution) : Store := storeOf s.bindings

/-- The context of a substitution in its own store. -/
def context (s : Substitution) : Context := ⟨s.bindings.length, s.top⟩

/-- The store of some bindings has as many entries. -/
theorem size_storeOf (bindings : List (Nat × Occurrence)) :
    (storeOf bindings).size = bindings.length := by
  induction bindings with
  | nil => rfl
  | cons binding rest ih => rw [storeOf, Store.size_push, ih, List.length_cons]

/-- The chain of the newest entry holds all bindings. -/
theorem chain_storeOf (bindings : List (Nat × Occurrence)) :
    (storeOf bindings).chain bindings.length = bindings := by
  induction bindings with
  | nil => rw [List.length_nil, Store.chain]
  | cons binding rest ih =>
    have hpush := (storeOf rest).chain_push ⟨binding.1, binding.2, rest.length⟩
      (le_of_eq (size_storeOf rest).symm)
    rw [size_storeOf, ih] at hpush
    rw [List.length_cons, storeOf, hpush]

/-- A substitution is what its own context denotes. -/
@[simp] theorem substitution_store (s : Substitution) :
    s.store.substitution s.context = s := by
  rw [Store.substitution, context, store, chain_storeOf]

/-- The context of a substitution names the last entry of its store. -/
theorem stamp_context (s : Substitution) : s.context.stamp = s.store.size :=
  (size_storeOf s.bindings).symm

end Substitution

end ClauseResolution
