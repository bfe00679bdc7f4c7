import ClauseResolution.Proofs.Substitution.Rational

/-!
# Where slots end

Followed from binding to binding, a slot ends at a free slot or at a term that is no variable.
Where two variables of a slot end does not depend on their names or on the places at which they
stand. Binding one more free slot moves the slots that ended there and no other. The slots that
are reached from a term are those at which the slots end that are met by going from ends to the
slots in them.
-/

namespace ClauseResolution

/-- A variable of a slot. -/
def Occurrence.ofSlot (slot : Nat) : Occurrence := .whole 0 (.var ⟨"", some slot⟩)

/-- The occurrence that stands for a slot has this slot. -/
@[simp] theorem Occurrence.slot?_ofSlot (slot : Nat) : (ofSlot slot).slot? = some slot := rfl

/-- A variable that has a slot is one. -/
theorem Occurrence.exists_var_of_slot? {o : Occurrence} {slot : Nat} (h : o.slot? = some slot) :
    ∃ v : Var, o.term = .var v ∧ v.index = some slot := by
  obtain ⟨text, node, term⟩ := o
  cases term with
  | var v => exact ⟨v, rfl, h⟩
  | atom | number | compound => cases h

/-- An occurrence with a slot is a variable. -/
theorem Occurrence.isVar_of_slot? {o : Occurrence} {slot : Nat} (h : o.slot? = some slot) :
    o.isVar = true := by
  obtain ⟨v, hv, _⟩ := exists_var_of_slot? h
  rw [isVar, hv]

namespace Substitution

variable {s : Substitution} {o value : Occurrence} {t : Term} {i j k : Nat}

/-- Where a slot ends. -/
def root (s : Substitution) (slot : Nat) : Occurrence := s.deref (.ofSlot slot)

/-- A new binding is met at the end of the walks that ended at its slot. -/
theorem Settles.deref_extend (h : s.Settles) (hfree : s.valueAt k = none) (hvalue : s.Settled value)
    (hself : value.slot? ≠ some k) (o : Occurrence) :
    (s.extend k value).deref o = if (s.deref o).slot? = some k then value else s.deref o := by
  have hextended := h.extend hvalue hself
  have hfollowed : s.followWithin s.bindings.length o = s.deref o := rfl
  rw [← hfollowed]
  have hend : s.Settled (s.followWithin s.bindings.length o) := h.settled_deref o
  clear hfollowed
  generalize s.bindings.length = hops at hend ⊢
  induction hops generalizing o with
  | zero =>
    rw [followWithin] at hend ⊢
    split
    · next hslot =>
      have hfollow : (s.extend k value).follow o = some value := by
        rw [follow, hslot, Option.bind_some, valueAt_extend, if_pos rfl]
      rw [hextended.deref_of_follow hfollow]
      exact deref_of_settled ((follow_extend s value hself).trans hvalue)
    · next hslot => exact deref_of_settled ((follow_extend s value hslot).trans hend)
  | succ hops ih =>
    cases hfollow : s.follow o with
    | none =>
      have hsame : ∀ n, s.followWithin n o = o := followWithin_of_settled hfollow
      rw [hsame] at hend ⊢
      rw [← hsame hops] at hend
      simpa only [hsame] using ih o hend
    | some next =>
      have hslot : o.slot? ≠ some k := fun hslot => by
        rw [follow, hslot, Option.bind_some, hfree] at hfollow
        cases hfollow
      rw [followWithin_of_follow hfollow] at hend ⊢
      rw [hextended.deref_of_follow ((follow_extend s value hslot).trans hfollow)]
      exact ih next hend

/-- A slot that ended at the new one ends at its value, and the other slots end where they did. -/
theorem Settles.root_extend (h : s.Settles) (hfree : s.valueAt k = none) (hvalue : s.Settled value)
    (hself : value.slot? ≠ some k) (i : Nat) :
    (s.extend k value).root i = if (s.root i).slot? = some k then value else s.root i :=
  h.deref_extend hfree hvalue hself _

/-- A free slot ends at itself. -/
theorem root_of_free (h : s.valueAt i = none) : s.root i = .ofSlot i :=
  deref_of_settled (by rw [Settled, follow, Occurrence.slot?_ofSlot, Option.bind_some, h])

/-- A slot ends where its value does. -/
theorem Settles.root_of_valueAt (h : s.Settles) (hvalue : s.valueAt i = some value) :
    s.root i = s.deref value :=
  h.deref_of_follow (by rw [follow, Occurrence.slot?_ofSlot, Option.bind_some, hvalue])

/-- The slot at which a slot ends is free. -/
theorem Settles.valueAt_of_root (h : s.Settles) (hroot : (s.root i).slot? = some k) :
    s.valueAt k = none := by
  have hsettled : s.follow (s.root i) = none := h.settled_deref _
  rwa [follow, hroot, Option.bind_some] at hsettled

/-- A variable ends where its slot does: at itself, or at one and the same occurrence. -/
theorem Settles.deref_eq_root (h : s.Settles) (hslot : o.slot? = some i) :
    s.deref o = s.root i ∨ s.valueAt i = none ∧ s.deref o = o := by
  cases hvalue : s.valueAt i with
  | none =>
    exact Or.inr ⟨rfl, deref_of_settled (by rw [Settled, follow, hslot, Option.bind_some, hvalue])⟩
  | some value =>
    rw [h.root_of_valueAt hvalue]
    exact Or.inl (h.deref_of_follow (by rw [follow, hslot, Option.bind_some, hvalue]))

/-- At whichever variable of a slot the walk starts, it ends at the same slot or at none. -/
theorem Settles.slot?_deref (h : s.Settles) (hslot : o.slot? = some i) :
    (s.deref o).slot? = (s.root i).slot? := by
  rcases h.deref_eq_root hslot with heq | ⟨hfree, heq⟩
  · rw [heq]
  · rw [heq, hslot, root_of_free hfree, Occurrence.slot?_ofSlot]

/-- What is no variable is the same, at whichever variable the walk starts. -/
theorem Settles.deref_eq_root_of_isVar (h : s.Settles) (hslot : o.slot? = some i)
    (hroot : (s.root i).isVar = false) : s.deref o = s.root i := by
  rcases h.deref_eq_root hslot with heq | ⟨hfree, _⟩
  · exact heq
  · rw [root_of_free hfree] at hroot
    cases hroot

/-- The term at which a slot ends contains another slot. -/
def Beneath (s : Substitution) (i j : Nat) : Prop :=
  (s.root i).isVar = false ∧ j ∈ (s.root i).term.slots

/-- The slots at the end of a walk are led to by those at its start. -/
theorem exists_leads_of_mem_deref (hj : j ∈ (s.deref o).term.slots) :
    ∃ i ∈ o.term.slots, Relation.ReflTransGen s.Leads i j := by
  rw [deref] at hj
  generalize s.bindings.length = hops at hj
  induction hops generalizing o with
  | zero => exact ⟨j, hj, .refl⟩
  | succ hops ih =>
    cases hfollow : s.follow o with
    | none =>
      rw [followWithin_of_settled hfollow] at hj
      exact ⟨j, hj, .refl⟩
    | some value =>
      rw [followWithin_of_follow hfollow] at hj
      obtain ⟨i, hi, hleads⟩ := ih hj
      obtain ⟨slot, hslot, hvalue⟩ := Option.bind_eq_some_iff.1 hfollow
      obtain ⟨v, hv, hindex⟩ := Occurrence.exists_var_of_slot? hslot
      exact ⟨slot, by rw [hv]; exact Term.mem_slots_var.2 hindex, .head ⟨value, hvalue, hi⟩ hleads⟩

/-- A slot leads to the slots in what it ends at. -/
theorem leads_of_mem_root (hj : j ∈ (s.root i).term.slots) : Relation.ReflTransGen s.Leads i j := by
  obtain ⟨slot, hslot, hleads⟩ := exists_leads_of_mem_deref hj
  obtain rfl : i = slot := Option.some.inj (Term.mem_slots_var.1 hslot)
  exact hleads

/-- Some slot beneath ends at a slot. -/
def EndsAt (s : Substitution) (i k : Nat) : Prop :=
  ∃ m, Relation.ReflTransGen s.Beneath i m ∧ (s.root m).slot? = some k

/-- Only the end of a slot matters for what is beneath. -/
theorem EndsAt.of_root_eq (h : s.EndsAt j k) (hroot : s.root i = s.root j) : s.EndsAt i k := by
  obtain ⟨m, hpath, hm⟩ := h
  rcases Relation.ReflTransGen.cases_head hpath with rfl | ⟨n, hfirst, hrest⟩
  · exact ⟨i, .refl, by rw [hroot, hm]⟩
  · exact ⟨m, .head (by rwa [Beneath, hroot]) hrest, hm⟩

/-- A slot leads to another one, free, if something beneath it ends there. -/
theorem Settles.leads_iff_endsAt (h : s.Settles) (hfree : s.valueAt k = none) :
    Relation.ReflTransGen s.Leads i k ↔ s.EndsAt i k := by
  constructor
  · intro hleads
    induction hleads using Relation.ReflTransGen.head_induction_on with
    | refl => exact ⟨k, .refl, by rw [root_of_free hfree, Occurrence.slot?_ofSlot]⟩
    | @head i j hstep _ ih =>
      obtain ⟨value, hvalue, hj⟩ := hstep
      have hroot := h.root_of_valueAt hvalue
      cases hvar : value.isVar with
      | true =>
        have hslot : value.slot? = some j := by
          obtain ⟨text, node, term⟩ := value
          cases term with
          | var v => exact Term.mem_slots_var.1 hj
          | atom | number | compound => cases hvar
        rcases h.deref_eq_root hslot with heq | ⟨hend, _⟩
        · exact ih.of_root_eq (hroot.trans heq)
        · obtain ⟨m, hpath, hm⟩ := ih
          rcases Relation.ReflTransGen.cases_head hpath with rfl | ⟨n, ⟨hnode, _⟩, _⟩
          · exact ⟨i, .refl, by rw [hroot, h.slot?_deref hslot, hm]⟩
          · rw [root_of_free hend] at hnode
            cases hnode
      | false =>
        have hsettled : s.follow value = none := by
          obtain ⟨text, node, term⟩ := value
          cases term with
          | var => cases hvar
          | atom | number | compound => rfl
        rw [deref_of_settled hsettled] at hroot
        obtain ⟨m, hpath, hm⟩ := ih
        exact ⟨m, .head (by rw [Beneath, hroot]; exact ⟨hvar, hj⟩) hpath, hm⟩
  · rintro ⟨m, hpath, hm⟩
    have hend : Relation.ReflTransGen s.Leads m k := by
      obtain ⟨v, hv, hindex⟩ := Occurrence.exists_var_of_slot? hm
      exact leads_of_mem_root (by rw [hv]; exact Term.mem_slots_var.2 hindex)
    clear hm
    induction hpath with
    | refl => exact hend
    | tail _ hstep ih => exact ih ((leads_of_mem_root hstep.2).trans hend)

/-- The free slots that are reached from a term are those at which something beneath ends. -/
theorem Settles.reaches_iff (h : s.Settles) (hfree : s.valueAt k = none) :
    s.Reaches t k ↔ ∃ i ∈ t.slots, s.EndsAt i k :=
  exists_congr fun _ => and_congr_right fun _ => h.leads_iff_endsAt hfree

end Substitution

end ClauseResolution
