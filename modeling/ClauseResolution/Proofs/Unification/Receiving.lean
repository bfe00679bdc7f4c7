import ClauseResolution.Proofs.Substitution.Resolve
import ClauseResolution.Proofs.Unification.Names

/-!
# Free variables that receive terms

When different free variables stand against terms in which none of them occurs, and no variable
of these terms is bound, unification binds each variable to the term it stands against, with the
occurs check and without. The terms are then the values of the variables, up to the counts that
are dropped where values are put in.
-/

namespace ClauseResolution

/-- An assignment that leaves the variables of a term alone changes nothing but counts. -/
theorem Term.same_assign {θ : Assignment} {t : Term} (ht : t.isNaNFree)
    (hθ : ∀ slot ∈ t.slots, θ slot = none) : t.same (t.assign θ) := by
  induction t with
  | atom | number => exact same_self ht
  | var v =>
    cases hv : v.index with
    | none =>
      rw [assign, hv]
      exact same_self ht
    | some slot =>
      rw [assign_var_of_index hv, hθ slot (mem_slots_var.2 hv)]
      exact same_self ht
  | compound functor args varCount ih =>
    rw [assign_compound, same_compound, List.forall₂_map_right_iff]
    refine ⟨rfl, List.forall₂_same.2 fun t hmem => ?_⟩
    exact ih t hmem (isNaNFree_compound.1 ht t hmem) fun slot hslot =>
      hθ slot (mem_slots_compound.2 ⟨t, hmem, hslot⟩)

/-- The slot of a variable is a slot of the term. -/
theorem Occurrence.mem_slots_of_slot? {o : Occurrence} {slot : Nat} (h : o.slot? = some slot) :
    slot ∈ o.term.slots := by
  obtain ⟨text, node, term⟩ := o
  cases term with
  | var v => exact Term.mem_slots_var.2 h
  | atom | number | compound => cases h

namespace Substitution

variable {s : Substitution} {pairs : List (Occurrence × Occurrence)} {l r : Occurrence}
  {t : Term} {slot : Nat}

/-- A term without bound variables reaches its own slots only. -/
theorem mem_slots_of_reaches (ht : ∀ i ∈ t.slots, s.valueAt i = none) (h : s.Reaches t slot) :
    slot ∈ t.slots := by
  obtain ⟨i, hi, hway⟩ := h
  cases hway using Relation.ReflTransGen.head_induction_on with
  | refl => exact hi
  | head hleads =>
    obtain ⟨value, hvalue, _⟩ := hleads
    rw [ht i hi] at hvalue
    cases hvalue

/-- On the left there are different free variables, on the right terms without bound variables in
which none of them occurs. -/
structure Receives (s : Substitution) (pairs : List (Occurrence × Occurrence)) : Prop where
  /-- The variables on the left are free, and none is anonymous. -/
  left : ∀ p ∈ pairs, ∃ v slot, p.1.term = .var v ∧ v.index = some slot ∧
    v.isAnonymous = false ∧ s.valueAt slot = none
  /-- The variables on the right have slots, and none is anonymous. -/
  plain : ∀ p ∈ pairs, p.2.term.isPlain
  /-- They are free. -/
  free : ∀ p ∈ pairs, ∀ slot ∈ p.2.term.slots, s.valueAt slot = none
  /-- No variable stands on both sides. -/
  apart : ∀ p ∈ pairs, ∀ q ∈ pairs, ∀ slot ∈ q.2.term.slots, p.1.slot? ≠ some slot
  /-- No variable stands on the left twice. -/
  nodup : (pairs.map fun p => p.1.slot?).Nodup

/-- The substitution that binds the variables on the left. -/
def receive (s : Substitution) : List (Occurrence × Occurrence) → Substitution
  | [] => s
  | (l, r) :: pairs => (l.slot?.elim s (s.extend · r)).receive pairs

/-- The variable of the first pair, with its slot. -/
theorem Receives.head (h : s.Receives ((l, r) :: pairs)) : ∃ v slot, l.term = .var v ∧
    v.index = some slot ∧ v.isAnonymous = false ∧ s.valueAt slot = none ∧ l.slot? = some slot ∧
      s.receive ((l, r) :: pairs) = (s.extend slot r).receive pairs := by
  obtain ⟨v, slot, hterm, hindex, hnamed, hfree⟩ := h.left (l, r) List.mem_cons_self
  have hslot : l.slot? = some slot := by rw [Occurrence.slot?, hterm, Term.slot?, hindex]
  exact ⟨v, slot, hterm, hindex, hnamed, hfree, hslot, by rw [receive, hslot, Option.elim_some]⟩

/-- The first variable does not stand on the left again. -/
theorem Receives.not_mem_tail (h : s.Receives ((l, r) :: pairs)) (hslot : l.slot? = some slot) :
    some slot ∉ pairs.map fun p => p.1.slot? := hslot ▸ (List.nodup_cons.1 h.nodup).1

/-- After the first variable is bound, the others are as before. -/
theorem Receives.tail (h : s.Receives ((l, r) :: pairs)) (hslot : l.slot? = some slot) :
    (s.extend slot r).Receives pairs := by
  refine ⟨fun p hp => ?_, fun p hp => h.plain p (List.mem_cons_of_mem _ hp), fun p hp i hi => ?_,
    fun p hp q hq => h.apart p (List.mem_cons_of_mem _ hp) q (List.mem_cons_of_mem _ hq),
    (List.nodup_cons.1 h.nodup).2⟩
  · obtain ⟨v, i, hterm, hindex, hnamed, hfree⟩ := h.left p (List.mem_cons_of_mem _ hp)
    have hne : i ≠ slot := by
      rintro rfl
      refine h.not_mem_tail hslot (List.mem_map.2 ⟨p, hp, ?_⟩)
      rw [Occurrence.slot?, hterm, Term.slot?, hindex]
    exact ⟨v, i, hterm, hindex, hnamed, by rw [valueAt_extend, if_neg hne, hfree]⟩
  · have hne : i ≠ slot := by
      rintro rfl
      exact h.apart (l, r) List.mem_cons_self p (List.mem_cons_of_mem _ hp) i hi hslot
    rw [valueAt_extend, if_neg hne, h.free p (List.mem_cons_of_mem _ hp) i hi]

/-- The first variable does not occur in the term it stands against. -/
theorem Receives.not_reaches (h : s.Receives ((l, r) :: pairs)) (hslot : l.slot? = some slot) :
    ¬ s.Reaches r.term slot := fun hreach =>
  h.apart (l, r) List.mem_cons_self (l, r) List.mem_cons_self slot
    (mem_slots_of_reaches (h.free (l, r) List.mem_cons_self) hreach) hslot

/-- The first pair calls for binding the variable. -/
theorem Receives.pairStep_eq (h : s.Receives ((l, r) :: pairs)) (layout : Layout)
    (occursCheck : Bool)
    (entered : List (Occurrence × Occurrence)) :
    ∃ v, v.index = l.slot? ∧ s.pairStep layout occursCheck entered l r = .bind v r := by
  obtain ⟨v, slot, hterm, hindex, hnamed, hfree, hslot, _⟩ := h.head
  have hplain := h.plain (l, r) List.mem_cons_self
  have hright := h.free (l, r) List.mem_cons_self
  have hapart := h.apart (l, r) List.mem_cons_self (l, r) List.mem_cons_self
  have hl : s.deref l = l := by
    refine deref_of_settled ?_
    rw [Settled, follow, hslot, Option.bind_some, hfree]
  have hr : s.deref r = r := by
    refine deref_of_settled ?_
    rw [Settled, follow]
    cases hi : r.slot? with
    | none => rfl
    | some i => exact hright i (Occurrence.mem_slots_of_slot? hi)
  refine ⟨v, by rw [hindex, hslot], ?_⟩
  have hleft : (s.deref l).term = .var v := by rw [hl, hterm]
  cases hrterm : r.term with
  | var w =>
    dsimp only at hplain
    rw [hrterm] at hplain
    obtain ⟨⟨i, hi⟩, hw⟩ := Term.isPlain_var.1 hplain
    have hne : slot ≠ i := by
      rintro rfl
      exact hapart slot (by simp [hrterm, hi]) hslot
    have hconstant : l.term.sameConstant r.term = false := by
      simp [hterm, hrterm, Term.sameConstant, hindex, hi, hne]
    rw [pairStep_of_vars hconstant hleft (by rw [hr, hrterm]), hr, hnamed, hw,
      Var.same_of_index_ne hindex hi hne]
    rfl
  | atom | number | compound =>
    have hconstant : l.term.sameConstant r.term = false := by
      simp [hterm, hrterm, Term.sameConstant]
    have hoccurs : s.occurs v r.term = false := by
      rw [← Bool.not_eq_true, occurs_iff]
      rintro ⟨i, hi, _, hreach⟩
      rw [hindex] at hi
      exact h.not_reaches (hslot.trans hi) hreach
    rw [pairStep_of_left hleft (by rw [hr, Occurrence.isVar, hrterm]) hconstant, hr, hnamed,
      hoccurs]
    simp

/-- Unification binds each variable to the term it stands against. -/
theorem Receives.unifyPairs_eq (h : s.Receives pairs) {steps : Nat} (hsteps : pairs.length ≤ steps)
    (layout : Layout) (occursCheck : Bool) (entered : List (Occurrence × Occurrence)) :
    s.unifyPairs layout occursCheck steps entered pairs = .unified (s.receive pairs) := by
  induction pairs generalizing s steps with
  | nil => rw [unifyPairs, receive]
  | cons pair pairs ih =>
    obtain ⟨l, r⟩ := pair
    obtain ⟨steps, rfl⟩ : ∃ n, steps = n + 1 := by
      rw [List.length_cons] at hsteps
      exact ⟨steps - 1, by omega⟩
    obtain ⟨_, slot, _, _, _, _, hslot, hreceive⟩ := h.head
    obtain ⟨v, hv, hstep⟩ := h.pairStep_eq layout occursCheck entered
    have hbind : s.bind v r = s.extend slot r := by rw [bind, hv, hslot]
    rw [unifyPairs, hstep, hreceive]
    dsimp only
    rw [hbind]
    exact ih (h.tail hslot) (Nat.le_of_succ_le_succ hsteps)

/-- A slot that does not stand on the left keeps its value. -/
theorem valueAt_receive_of_not_mem (h : some slot ∉ pairs.map fun p => p.1.slot?) :
    (s.receive pairs).valueAt slot = s.valueAt slot := by
  induction pairs generalizing s with
  | nil => rfl
  | cons pair pairs ih =>
    obtain ⟨l, r⟩ := pair
    rw [List.map_cons, List.mem_cons, not_or] at h
    rw [receive, ih h.2]
    cases hslot : l.slot? with
    | none => rfl
    | some i =>
      have hne : slot ≠ i := fun heq => h.1 (by rw [hslot, heq])
      rw [Option.elim_some, valueAt_extend, if_neg hne]

/-- Each variable on the left has the term it stands against as value. -/
theorem Receives.valueAt_eq (h : s.Receives pairs) {p : Occurrence × Occurrence} (hp : p ∈ pairs)
    (hslot : p.1.slot? = some slot) : (s.receive pairs).valueAt slot = some p.2 := by
  induction pairs generalizing s with
  | nil => cases hp
  | cons pair pairs ih =>
    obtain ⟨l, r⟩ := pair
    obtain ⟨_, i, _, _, _, _, hl, hreceive⟩ := h.head
    rw [hreceive]
    rcases List.mem_cons.1 hp with rfl | hp
    · obtain rfl : i = slot := Option.some.inj (hl.symm.trans hslot)
      rw [valueAt_receive_of_not_mem (h.not_mem_tail hl), valueAt_extend, if_pos rfl]
    · exact ih (h.tail hl) hp

/-- No cycle comes in. -/
theorem Receives.acyclic (h : s.Receives pairs) (hs : s.Acyclic) : (s.receive pairs).Acyclic := by
  induction pairs generalizing s with
  | nil => exact hs
  | cons pair pairs ih =>
    obtain ⟨l, r⟩ := pair
    obtain ⟨_, slot, _, _, _, hfree, hslot, hreceive⟩ := h.head
    rw [hreceive]
    exact ih (h.tail hslot) (hs.extend hfree (h.not_reaches hslot))

/-- In the solution a variable becomes what the term it stands against becomes. -/
theorem Receives.assign_left (h : s.Receives pairs) (hs : s.Acyclic)
    {p : Occurrence × Occurrence} (hp : p ∈ pairs) :
    p.1.term.assign (s.receive pairs).solution = p.2.term.assign (s.receive pairs).solution := by
  obtain ⟨v, slot, hterm, hindex, _⟩ := h.left p hp
  have hslot : p.1.slot? = some slot := by rw [Occurrence.slot?, hterm, Term.slot?, hindex]
  have hsolves := (h.acyclic hs).solves_solution slot
  rw [Solves, h.valueAt_eq hp hslot, Option.map_some] at hsolves
  rw [hterm, Term.assign_var_of_index hindex, hsolves, Option.getD_some]

/-- In the solution the terms on the right stay the same. -/
theorem Receives.same_assign_right (h : s.Receives pairs) (hs : s.Acyclic)
    {p : Occurrence × Occurrence} (hp : p ∈ pairs) :
    p.2.term.same (p.2.term.assign (s.receive pairs).solution) := by
  refine Term.same_assign (Term.isNaNFree_of_isPlain (h.plain p hp)) fun slot hslot => ?_
  have hnew : some slot ∉ pairs.map fun p => p.1.slot? := by
    intro hmem
    obtain ⟨q, hq, hleft⟩ := List.mem_map.1 hmem
    exact h.apart q hq p hp slot hslot hleft
  have hsolves := (h.acyclic hs).solves_solution slot
  rwa [Solves, valueAt_receive_of_not_mem hnew, h.free p hp slot hslot] at hsolves

end Substitution

end ClauseResolution
