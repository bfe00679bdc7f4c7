import ClauseResolution.Proofs.Substitution.Resolve

/-!
# Substitutions one after the other

A substitution retains another one when it has all its values, and maybe more. Following an
occurrence in the shorter substitution first does not change where it ends in the longer one.
The same holds of whole terms: applying the solution of the shorter substitution and then that
of the longer one is applying the latter. What the solution makes of a term has free variables
only.
-/

namespace ClauseResolution.Substitution

variable {s s' s'' : Substitution} {o : Occurrence} {slot : Nat} {value : Occurrence}

/-- Every slot that is bound keeps its value. -/
def Retains (s s' : Substitution) : Prop :=
  ∀ slot value, s.valueAt slot = some value → s'.valueAt slot = some value

/-- A substitution retains itself. -/
theorem Retains.refl (s : Substitution) : s.Retains s := fun _ _ => id

/-- What retains a substitution retains what that one retains. -/
theorem Retains.trans (h : s.Retains s') (h' : s'.Retains s'') : s.Retains s'' :=
  fun slot value hvalue => h' slot value (h slot value hvalue)

/-- A new binding of a free slot leaves the values of the others. -/
theorem retains_extend (hfree : s.valueAt slot = none) : s.Retains (s.extend slot value) := by
  intro i other hother
  have hne : i ≠ slot := by
    rintro rfl
    rw [hfree] at hother
    cases hother
  rw [valueAt_extend, if_neg hne, hother]

namespace Retains

variable (h : s.Retains s')
include h

/-- The shorter substitution follows part of the way that the longer one goes. -/
theorem deref_deref (hs' : s'.Settles) (o : Occurrence) : s'.deref (s.deref o) = s'.deref o := by
  have hwithin : ∀ hops o, s'.deref (s.followWithin hops o) = s'.deref o := by
    intro hops
    induction hops with
    | zero => exact fun _ => rfl
    | succ hops ih =>
      intro o
      cases hfollow : s.follow o with
      | none => rw [followWithin_of_settled hfollow]
      | some value =>
        obtain ⟨i, hi, hvalue⟩ := Option.bind_eq_some_iff.1 hfollow
        have hfollow' : s'.follow o = some value := by
          rw [follow, hi, Option.bind_some, h i value hvalue]
        rw [followWithin_of_follow hfollow, ih, hs'.deref_of_follow hfollow']
  exact hwithin _ o

/-- What ends at no variable with a slot ends there in the longer substitution as well. -/
theorem deref_eq (hs' : s'.Settles) (hend : (s.deref o).slot? = none) :
    s'.deref o = s.deref o := by
  rw [← h.deref_deref hs' o]
  exact deref_of_settled (by rw [Settled, follow, hend, Option.bind_none])

end Retains

/-- Applying the solution before that of a substitution that retains it makes no difference. -/
theorem Acyclic.solution_andThen (hs : s.Acyclic) (hs' : s'.Acyclic) (h : s.Retains s') :
    s.solution.andThen s'.solution = s'.solution := by
  funext i
  induction i using hs.induction with
  | step i ih =>
    have hsolves := hs.solves_solution i
    have hsolves' := hs'.solves_solution i
    rw [Assignment.andThen]
    cases hvalue : s.valueAt i with
    | none =>
      rw [Solves, hvalue, Option.map_none] at hsolves
      rw [hsolves]
    | some value =>
      rw [Solves, hvalue, Option.map_some] at hsolves
      rw [Solves, h i value hvalue, Option.map_some] at hsolves'
      have hbelow : (value.term.assign s.solution).assign s'.solution =
          value.term.assign s'.solution := by
        rw [← Term.assign_andThen]
        exact Term.assign_congr fun j hj => ih j ⟨value, hvalue, hj⟩
      rw [hsolves, hsolves']
      exact congrArg some hbelow

/-- The same for terms. -/
theorem Acyclic.assign_solution_solution (hs : s.Acyclic) (hs' : s'.Acyclic) (h : s.Retains s')
    (t : Term) : (t.assign s.solution).assign s'.solution = t.assign s'.solution := by
  rw [← Term.assign_andThen, hs.solution_andThen hs' h]

end ClauseResolution.Substitution

namespace ClauseResolution

/-- A variable of a term with what is assigned comes from what was assigned, or was there and
nothing is assigned to it. -/
theorem Term.exists_of_mem_leaves_assign {θ : Assignment} {t : Term} {v : Var}
    (hv : .var v ∈ (t.assign θ).leaves) :
    (∃ i ∈ t.slots, ∃ u, θ i = some u ∧ .var v ∈ u.leaves) ∨
      .var v ∈ t.leaves ∧ v.index.bind θ = none := by
  induction t with
  | atom | number => simp at hv
  | var w =>
    rw [assign] at hv
    cases hvalue : w.index.bind θ with
    | none =>
      rw [hvalue, Option.getD_none, leaves_var, List.mem_singleton] at hv
      cases hv
      exact Or.inr ⟨List.mem_singleton_self _, hvalue⟩
    | some u =>
      obtain ⟨i, hi, hu⟩ := Option.bind_eq_some_iff.1 hvalue
      rw [hvalue, Option.getD_some] at hv
      exact Or.inl ⟨i, mem_slots_var.2 hi, u, hu, hv⟩
  | compound functor args varCount ih =>
    rw [assign_compound, leaves_compound, List.flatMap_map] at hv
    obtain ⟨arg, harg, hv⟩ := List.mem_flatMap.1 hv
    rcases ih arg harg hv with ⟨i, hi, u, hu, hv⟩ | ⟨hv, hfree⟩
    · exact Or.inl ⟨i, mem_slots_compound.2 ⟨arg, harg, hi⟩, u, hu, hv⟩
    · exact Or.inr ⟨by rw [leaves_compound]; exact List.mem_flatMap.2 ⟨arg, harg, hv⟩, hfree⟩

namespace Substitution

variable {s : Substitution}

/-- No variable is bound that is left when the solution was applied. -/
theorem Acyclic.valueAt_of_mem_leaves (h : s.Acyclic) {t : Term} {v : Var}
    (hv : .var v ∈ (t.assign s.solution).leaves) : v.index.bind s.valueAt = none := by
  have hfree : ∀ w : Var, w.index.bind s.solution = none → w.index.bind s.valueAt = none := by
    intro w hw
    cases hindex : w.index with
    | none => rfl
    | some i =>
      have hsolves := h.solves_solution i
      rw [hindex, Option.bind_some] at hw
      rw [Solves, hw, eq_comm, Option.map_eq_none_iff] at hsolves
      rw [Option.bind_some, hsolves]
  -- The induction is on the slots that are met when values are applied in values.
  have hslot : ∀ i u, s.solution i = some u → .var v ∈ u.leaves →
      v.index.bind s.valueAt = none := by
    intro i
    induction i using h.induction with
    | step i ih =>
      intro u hu hv
      have hsolves := h.solves_solution i
      rw [Solves, hu] at hsolves
      obtain ⟨value, hvalue, rfl⟩ := Option.map_eq_some_iff.1 hsolves.symm
      rcases Term.exists_of_mem_leaves_assign hv with ⟨j, hj, u, hu, hv⟩ | ⟨_, hnone⟩
      · exact ih j ⟨value, hvalue, hj⟩ u hu hv
      · exact hfree v hnone
  rcases Term.exists_of_mem_leaves_assign hv with ⟨i, _, u, hu, hv⟩ | ⟨_, hnone⟩
  · exact hslot i u hu hv
  · exact hfree v hnone

end Substitution

end ClauseResolution
