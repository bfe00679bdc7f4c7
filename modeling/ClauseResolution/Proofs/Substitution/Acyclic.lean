import ClauseResolution.Proofs.Substitution.Reach
import Mathlib.Data.Finset.Card

/-!
# Acyclic substitutions

A substitution is acyclic when no slot leads back to itself. Since only finitely many
slots are bound, statements about slots then go by induction from the slots in a value
to the slot that has the value. Following variables ends. A new binding of a free slot
keeps a substitution acyclic unless the slot is reached from its own value.
-/

namespace ClauseResolution.Substitution

variable {s : Substitution} {slot : Nat} {value : Occurrence}

/-- No slot leads to itself. -/
def Acyclic (s : Substitution) : Prop := ∀ slot, ¬ Relation.TransGen s.Leads slot slot

/-- Slots that are bound are among those of the bindings. -/
theorem mem_slots_of_valueAt (h : s.valueAt slot = some value) :
    slot ∈ s.bindings.map Prod.fst := by
  obtain ⟨newer, older, hbindings, _⟩ := List.lookup_eq_some_iff.1 h
  simp [hbindings]

/-- A property that passes from the slots in a value to the slot holds of every slot. -/
theorem Acyclic.induction {motive : Nat → Prop} (h : s.Acyclic)
    (step : ∀ i, (∀ j, s.Leads i j → motive j) → motive i) (i : Nat) : motive i := by
  classical
  -- The number of bound slots that a slot leads to decreases along the way.
  let below (i : Nat) := (s.bindings.map Prod.fst).toFinset.filter (Relation.TransGen s.Leads i)
  have hlt : ∀ i j value, s.Leads i j → s.valueAt j = some value →
      (below j).card < (below i).card := by
    intro i j value hleads hvalue
    refine Finset.card_lt_card ⟨?_, fun hsub => ?_⟩
    · intro k hk
      obtain ⟨hslot, hreach⟩ := Finset.mem_filter.1 hk
      exact Finset.mem_filter.2 ⟨hslot, .head hleads hreach⟩
    · have hmem : j ∈ below i :=
        Finset.mem_filter.2 ⟨List.mem_toFinset.2 (mem_slots_of_valueAt hvalue), .single hleads⟩
      exact h j (Finset.mem_filter.1 (hsub hmem)).2
  induction hn : (below i).card using Nat.strongRecOn generalizing i with
  | ind n ih =>
    refine step i fun j hleads => ?_
    cases hvalue : s.valueAt j with
    | none =>
      refine step j fun k hk => ?_
      obtain ⟨value, hvalue', _⟩ := hk
      rw [hvalue] at hvalue'
      cases hvalue'
    | some value =>
      have hless := hlt i j value hleads hvalue
      rw [hn] at hless
      exact ih _ hless j rfl

/-- Following variables ends in an acyclic substitution. -/
theorem Acyclic.settles (h : s.Acyclic) : s.Settles := by
  have hslot : ∀ i o, o.slot? = some i → ∃ hops, s.Settled (s.followWithin hops o) := by
    intro i
    induction i using h.induction with
    | step i ih =>
      intro o ho
      cases hvalue : s.valueAt i with
      | none => exact ⟨0, by rw [Settled, followWithin, follow, ho, Option.bind_some, hvalue]⟩
      | some value =>
        have hfollow : s.follow o = some value := by
          rw [follow, ho, Option.bind_some, hvalue]
        cases hnext : value.slot? with
        | none =>
          refine ⟨1, ?_⟩
          rw [followWithin_of_follow hfollow, Settled, followWithin, follow, hnext,
            Option.bind_none]
        | some j =>
          have hleads : s.Leads i j := by
            refine ⟨value, hvalue, ?_⟩
            obtain ⟨text, node, term⟩ := value
            cases term <;> simp_all [Occurrence.slot?, Term.slot?]
          obtain ⟨hops, hend⟩ := ih j hleads value hnext
          exact ⟨hops + 1, by rw [followWithin_of_follow hfollow]; exact hend⟩
  intro o
  cases ho : o.slot? with
  | none => exact ⟨0, by rw [Settled, followWithin, follow, ho, Option.bind_none]⟩
  | some i => exact hslot i o ho

/-- A substitution without bindings is acyclic. -/
theorem acyclic_of_bindings_eq_nil (h : s.bindings = []) : s.Acyclic := by
  intro slot hcycle
  have hnone : ∀ i j, ¬ s.Leads i j := by
    rintro i j ⟨value, hvalue, _⟩
    simp [valueAt, h] at hvalue
  cases hcycle with
  | single hleads => exact hnone _ _ hleads
  | tail _ hleads => exact hnone _ _ hleads

/-- After a free slot was bound, it leads to the slots in its value, and the other slots
lead where they led before. -/
theorem leads_extend_iff {i j : Nat} (hfree : s.valueAt slot = none) :
    (s.extend slot value).Leads i j ↔ s.Leads i j ∨ i = slot ∧ j ∈ value.term.slots := by
  constructor
  · rintro ⟨v, hv, hj⟩
    rw [valueAt_extend] at hv
    split at hv
    · next heq =>
      cases hv
      exact Or.inr ⟨heq, hj⟩
    · exact Or.inl ⟨v, hv, hj⟩
  · rintro (⟨v, hv, hj⟩ | ⟨rfl, hj⟩)
    · refine ⟨v, ?_, hj⟩
      have hne : i ≠ slot := by
        rintro rfl
        rw [hfree] at hv
        cases hv
      rw [valueAt_extend, if_neg hne, hv]
    · exact ⟨value, by rw [valueAt_extend, if_pos rfl], hj⟩

/-- A way to the slot that was bound last does not need its binding. -/
theorem reflTransGen_of_extend {i : Nat} (hfree : s.valueAt slot = none)
    (h : Relation.ReflTransGen (s.extend slot value).Leads i slot) :
    Relation.ReflTransGen s.Leads i slot := by
  induction h using Relation.ReflTransGen.head_induction_on with
  | refl => exact .refl
  | head hleads _ ih =>
    rcases (leads_extend_iff hfree).1 hleads with hold | ⟨rfl, _⟩
    · exact .head hold ih
    · exact .refl

/-- Binding a free slot to a value from which it is not reached makes no cycle. -/
theorem Acyclic.extend (h : s.Acyclic) (hfree : s.valueAt slot = none)
    (hreach : ¬ s.Reaches value.term slot) : (s.extend slot value).Acyclic := by
  -- A cycle through the new binding would reach the slot from its value.
  have hslot : ¬ Relation.TransGen (s.extend slot value).Leads slot slot := by
    intro hcycle
    obtain ⟨j, hleads, hrest⟩ := Relation.TransGen.head'_iff.1 hcycle
    rcases (leads_extend_iff hfree).1 hleads with ⟨v, hv, _⟩ | ⟨_, hj⟩
    · rw [hfree] at hv
      cases hv
    · exact hreach ⟨j, hj, reflTransGen_of_extend hfree hrest⟩
  have hway : ∀ i j, Relation.TransGen (s.extend slot value).Leads i j →
      Relation.TransGen s.Leads i j ∨
        Relation.ReflTransGen (s.extend slot value).Leads i slot ∧
          Relation.TransGen (s.extend slot value).Leads slot j := by
    intro i j hij
    induction hij using Relation.TransGen.head_induction_on with
    | single hleads =>
      rcases (leads_extend_iff hfree).1 hleads with hold | ⟨rfl, _⟩
      · exact Or.inl (.single hold)
      · exact Or.inr ⟨.refl, .single hleads⟩
    | head hleads hrest ih =>
      rcases (leads_extend_iff hfree).1 hleads with hold | ⟨rfl, _⟩
      · rcases ih with hbefore | ⟨hto, hfrom⟩
        · exact Or.inl (.head hold hbefore)
        · exact Or.inr ⟨.head hleads hto, hfrom⟩
      · exact Or.inr ⟨.refl, .head hleads hrest⟩
  intro i hcycle
  rcases hway i i hcycle with hold | ⟨hto, hfrom⟩
  · exact h i hold
  · exact hslot (hfrom.trans_left hto)

end ClauseResolution.Substitution
