import ClauseResolution.Proofs.Substitution.Deref
import ClauseResolution.Substitution.Occurs
import Mathlib.Logic.Relation

/-!
# Slots reached through bindings

A bound slot leads to the slots in its value, and a term reaches the slots to which its
own slots lead in any number of steps. The occurs test finds a variable exactly when it
is free and reached: the slots it has entered, together with free slots other than the
one it looks for, are closed under leading on.
-/

namespace ClauseResolution

namespace Substitution

/-- The value of a slot contains another slot. -/
def Leads (s : Substitution) (i j : Nat) : Prop :=
  ∃ value, s.valueAt i = some value ∧ j ∈ value.term.slots

/-- A slot is met when the values of the slots in a term are entered, again and again. -/
def Reaches (s : Substitution) (t : Term) (slot : Nat) : Prop :=
  ∃ i ∈ t.slots, Relation.ReflTransGen s.Leads i slot

variable {s : Substitution} {slot : Nat}

/-- A variable reaches what its value reaches. -/
theorem Reaches.of_value {v : Var} {i : Nat} {value : Occurrence} (hindex : v.index = some i)
    (hvalue : s.valueAt i = some value) (h : s.Reaches value.term slot) :
    s.Reaches (.var v) slot := by
  obtain ⟨j, hj, hreach⟩ := h
  exact ⟨i, Term.mem_slots_var.2 hindex, .head ⟨value, hvalue, hj⟩ hreach⟩

/-- A compound term reaches what one of its arguments reaches. -/
theorem Reaches.of_arg {functor : String} {args : List Term} {varCount : Nat} {t : Term}
    (ht : t ∈ args) (h : s.Reaches t slot) : s.Reaches (.compound functor args varCount) slot := by
  obtain ⟨i, hi, hreach⟩ := h
  exact ⟨i, Term.mem_slots_compound.2 ⟨t, ht, hi⟩, hreach⟩

/-- A set of slots that is left only through free slots catches everything reached from
it: whatever is reached is in the set or free in it. -/
theorem mem_of_reflTransGen {good : Nat → Prop}
    (hclosed : ∀ i j, good i → s.Leads i j → good j) {i j : Nat} (hi : good i)
    (h : Relation.ReflTransGen s.Leads i j) : good j := by
  induction h with
  | refl => exact hi
  | tail _ hstep ih => exact hclosed _ _ ih hstep

end Substitution

namespace Store

variable {σ : Store} {c : Context} {target : Var}

/-- What the search for a variable finds is a free slot reached from a pending term. -/
theorem reaches_of_occursIn {budget : Nat} {entered : List Nat} {pending : List Term}
    (h : σ.occursIn c target budget entered pending = true) :
    ∃ slot, target.index = some slot ∧ σ.valueAt c slot = none ∧
      ∃ t ∈ pending, (σ.substitution c).Reaches t slot := by
  fun_induction occursIn σ c target budget entered pending with
  | case1 => simp at h
  | case2 budget entered v rest _ ih | case3 budget entered v rest _ _ _ ih
  | case5 entered v rest _ _ _ _ _ ih | case8 budget entered _ rest ih
  | case9 budget entered _ rest ih =>
    obtain ⟨slot, hslot, hfree, t, ht, hreach⟩ := ih h
    exact ⟨slot, hslot, hfree, t, List.mem_cons_of_mem _ ht, hreach⟩
  | case4 budget entered v rest slot hindex _ hlookup ih =>
    rcases Bool.or_eq_true_iff.1 h with hsame | hrest
    · have htarget : target.index = some slot := by
        cases hi : target.index <;> simp_all [Var.same]
      refine ⟨slot, htarget, by simpa [lookup] using hlookup, .var v, List.mem_cons_self, ?_⟩
      exact ⟨slot, Term.mem_slots_var.2 hindex, .refl⟩
    · obtain ⟨slot, hslot, hfree, t, ht, hreach⟩ := ih hrest
      exact ⟨slot, hslot, hfree, t, List.mem_cons_of_mem _ ht, hreach⟩
  | case6 entered v rest slot hindex _ value hlookup budget ih =>
    obtain ⟨value, hvalue, rfl⟩ := Option.map_eq_some_iff.1 hlookup
    obtain ⟨target, htarget, hfree, t, ht, hreach⟩ := ih h
    rcases List.mem_cons.1 ht with rfl | ht
    · refine ⟨target, htarget, hfree, .var v, List.mem_cons_self, ?_⟩
      exact .of_value hindex (by rw [valueAt_substitution, hvalue]) hreach
    · exact ⟨target, htarget, hfree, t, List.mem_cons_of_mem _ ht, hreach⟩
  | case7 budget entered functor args varCount rest ih =>
    obtain ⟨target, htarget, hfree, t, ht, hreach⟩ := ih h
    rcases List.mem_append.1 ht with ht | ht
    · exact ⟨target, htarget, hfree, _, List.mem_cons_self, hreach.of_arg ht⟩
    · exact ⟨target, htarget, hfree, t, List.mem_cons_of_mem _ ht, hreach⟩

/-- A slot is dealt with when it was entered, or is free and not the one looked for. -/
def DealtWith (σ : Store) (c : Context) (target : Var) (entered : List Nat) (slot : Nat) : Prop :=
  slot ∈ entered ∨ σ.valueAt c slot = none ∧ target.index ≠ some slot

/-- A search in vain has entered a set of bound slots that contains every slot of a
pending term, and every slot of the values it entered, unless they are free. -/
theorem exists_entered_of_not_occursIn {budget : Nat} {entered : List Nat} {pending : List Term}
    (h : σ.occursIn c target budget entered pending = false) (hnodup : entered.Nodup)
    (hbound : ∀ slot ∈ entered, (σ.valueAt c slot).isSome)
    (hbudget : c.stamp ≤ budget + entered.length) :
    ∃ all, entered ⊆ all ∧ (∀ slot ∈ all, (σ.valueAt c slot).isSome) ∧
      (∀ t ∈ pending, ∀ slot ∈ t.slots, σ.DealtWith c target all slot) ∧
      ∀ i ∈ all, i ∉ entered → ∀ j, (σ.substitution c).Leads i j →
        σ.DealtWith c target all j := by
  fun_induction occursIn σ c target budget entered pending with
  | case1 budget entered => exact ⟨entered, fun _ hi => hi, hbound, by simp, by grind⟩
  | case2 budget entered v rest hindex ih =>
    obtain ⟨all, hsub, hall, hpending, hclosed⟩ := ih h hnodup hbound hbudget
    refine ⟨all, hsub, hall, List.forall_mem_cons.2 ⟨?_, hpending⟩, hclosed⟩
    intro slot hslot
    simp [hindex] at hslot
  | case3 budget entered v rest slot hindex hmem ih =>
    obtain ⟨all, hsub, hall, hpending, hclosed⟩ := ih h hnodup hbound hbudget
    refine ⟨all, hsub, hall, List.forall_mem_cons.2 ⟨?_, hpending⟩, hclosed⟩
    intro other hother
    obtain rfl : slot = other := by simpa [hindex] using hother
    exact Or.inl (hsub (List.contains_iff_mem.1 hmem))
  | case4 budget entered v rest slot hindex _ hlookup ih =>
    obtain ⟨hsame, hrest⟩ := Bool.or_eq_false_iff.1 h
    obtain ⟨all, hsub, hall, hpending, hclosed⟩ := ih hrest hnodup hbound hbudget
    refine ⟨all, hsub, hall, List.forall_mem_cons.2 ⟨?_, hpending⟩, hclosed⟩
    intro other hother
    obtain rfl : slot = other := by simpa [hindex] using hother
    refine Or.inr ⟨by simpa [lookup] using hlookup, fun htarget => ?_⟩
    simp [Var.same, hindex, htarget] at hsame
  | case5 entered v rest slot hindex hmem value hlookup ih =>
    obtain ⟨value, hvalue, _⟩ := Option.map_eq_some_iff.1 hlookup
    have hnotMem : slot ∉ entered := by simpa using hmem
    have hle := length_le_stamp_of_bound (List.nodup_cons.2 ⟨hnotMem, hnodup⟩)
      (List.forall_mem_cons.2 ⟨by rw [hvalue]; rfl, hbound⟩)
    rw [List.length_cons] at hle
    omega
  | case6 entered v rest slot hindex hmem value hlookup budget ih =>
    obtain ⟨value, hvalue, rfl⟩ := Option.map_eq_some_iff.1 hlookup
    have hnotMem : slot ∉ entered := by simpa using hmem
    obtain ⟨all, hsub, hall, hpending, hclosed⟩ := ih h (List.nodup_cons.2 ⟨hnotMem, hnodup⟩)
      (List.forall_mem_cons.2 ⟨by rw [hvalue]; rfl, hbound⟩) (by rw [List.length_cons]; omega)
    obtain ⟨hslot, hsub⟩ := List.cons_subset.1 hsub
    obtain ⟨hinner, hpending⟩ := List.forall_mem_cons.1 hpending
    refine ⟨all, hsub, hall, List.forall_mem_cons.2 ⟨?_, hpending⟩, ?_⟩
    · intro other hother
      obtain rfl : slot = other := by simpa [hindex] using hother
      exact Or.inl hslot
    · intro i hi hentered j hleads
      by_cases heq : i = slot
      · obtain ⟨value', hvalue', hj⟩ := hleads
        rw [heq, valueAt_substitution, hvalue] at hvalue'
        exact hinner j (Option.some.inj hvalue' ▸ hj)
      · exact hclosed i hi (by simp [heq, hentered]) j hleads
  | case7 budget entered functor args varCount rest ih =>
    obtain ⟨all, hsub, hall, hpending, hclosed⟩ := ih h hnodup hbound hbudget
    obtain ⟨hargs, hrest⟩ := List.forall_mem_append.1 hpending
    refine ⟨all, hsub, hall, List.forall_mem_cons.2 ⟨?_, hrest⟩, hclosed⟩
    intro slot hslot
    obtain ⟨t, ht, hslot⟩ := Term.mem_slots_compound.1 hslot
    exact hargs t ht slot hslot
  | case8 budget entered _ rest ih | case9 budget entered _ rest ih =>
    obtain ⟨all, hsub, hall, hpending, hclosed⟩ := ih h hnodup hbound hbudget
    exact ⟨all, hsub, hall, List.forall_mem_cons.2 ⟨by simp, hpending⟩, hclosed⟩

/-- The occurs test finds a variable exactly when its slot is free and reached from the
term. -/
theorem occurs_iff (σ : Store) (c : Context) (v : Var) (t : Term) :
    σ.occurs c v t = true ↔ ∃ slot, v.index = some slot ∧
      (σ.substitution c).valueAt slot = none ∧ (σ.substitution c).Reaches t slot := by
  constructor
  · intro h
    obtain ⟨slot, hslot, hfree, u, hu, hreach⟩ := reaches_of_occursIn h
    rw [List.mem_singleton] at hu
    exact ⟨slot, hslot, by rw [valueAt_substitution, hfree], hu ▸ hreach⟩
  · rintro ⟨slot, hslot, hfree, i, hi, hreach⟩
    by_contra hnot
    rw [valueAt_substitution] at hfree
    obtain ⟨all, _, hall, hpending, hclosed⟩ :=
      exists_entered_of_not_occursIn (Bool.eq_false_of_not_eq_true hnot) List.nodup_nil (by simp)
        (by simp)
    have hstep : ∀ i j, σ.DealtWith c v all i → (σ.substitution c).Leads i j →
        σ.DealtWith c v all j := by
      rintro i j (hmem | ⟨hnone, _⟩) hleads
      · exact hclosed i hmem (by simp) j hleads
      · obtain ⟨value, hvalue, _⟩ := hleads
        rw [valueAt_substitution, hnone] at hvalue
        cases hvalue
    have hdealt := Substitution.mem_of_reflTransGen hstep (hpending t (by simp) i hi) hreach
    rcases hdealt with hmem | ⟨_, hne⟩
    · have hsome := hall slot hmem
      rw [hfree] at hsome
      cases hsome
    · exact hne hslot

/-- The occurs test depends on the substitution alone. -/
theorem occurs_eq_of_substitution_eq {τ : Store} {d : Context}
    (h : σ.substitution c = τ.substitution d) (v : Var) (t : Term) :
    σ.occurs c v t = τ.occurs d v t := by
  rw [Bool.eq_iff_iff, occurs_iff, occurs_iff, h]

end Store

end ClauseResolution
