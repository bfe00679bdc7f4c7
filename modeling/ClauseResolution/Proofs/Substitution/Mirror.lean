import ClauseResolution.Proofs.Substitution.Resolve
import ClauseResolution.Proofs.Substitution.Roots
import ClauseResolution.Proofs.Term.Definite

/-!
# Substitutions that mirror each other

Two variables can be made equal by binding the one or the other. After that the two
substitutions have different free slots, but each of these has a counterpart: the free slot of
the one ends at the free slot of the other, and the other way round. Two substitutions mirror
each other when every slot ends at the same occurrence in both, or at counterparts. This stays
so when two variables are bound to each other in opposite directions, and when counterparts are
bound to the same occurrence. Substitutions that mirror each other make the same of every term,
up to the exchange of counterparts.
-/

namespace ClauseResolution.Substitution

variable {s s' : Substitution} {o e e' value value' : Occurrence} {t : Term} {i k k' m m' : Nat}

/-- A slot of the one substitution ends in the other at a slot that ends at it in the one. -/
structure Counterpart (s s' : Substitution) (k k' : Nat) : Prop where
  /-- The slot of the first ends at that of the second. -/
  forth : (s'.root k).slot? = some k'
  /-- The slot of the second ends at that of the first. -/
  back : (s.root k').slot? = some k

/-- Two walks end at one and the same occurrence without a slot, or at counterparts. -/
inductive Meets (s s' : Substitution) : Occurrence → Occurrence → Prop
  /-- At the same occurrence. -/
  | same {e : Occurrence} (hslot : e.slot? = none) : Meets s s' e e
  /-- At counterparts. -/
  | free {e e' : Occurrence} {k k' : Nat} (hslot : e.slot? = some k) (hslot' : e'.slot? = some k')
      (hpart : Counterpart s s' k k') : Meets s s' e e'

/-- All slots end alike in two substitutions. -/
structure Mirrors (s s' : Substitution) : Prop where
  /-- Following variables ends in the first. -/
  settles : s.Settles
  /-- It ends in the second. -/
  settles' : s'.Settles
  /-- The values of the first are definite. -/
  definite : ∀ binding ∈ s.bindings, binding.2.term.isDefinite
  /-- So are those of the second. -/
  definite' : ∀ binding ∈ s'.bindings, binding.2.term.isDefinite
  /-- Every slot ends alike in both. -/
  meets : ∀ i, Meets s s' (s.root i) (s'.root i)

namespace Counterpart

/-- A slot is a counterpart of its counterpart. -/
theorem symm (h : Counterpart s s' k k') : Counterpart s' s k' k := ⟨h.back, h.forth⟩

/-- A slot has one counterpart, and is the counterpart of one slot. -/
theorem eq_iff (h : Counterpart s s' k k') (h' : Counterpart s s' m m') : k = m ↔ k' = m' := by
  constructor
  · rintro rfl
    exact Option.some.inj (h.forth.symm.trans h'.forth)
  · rintro rfl
    exact Option.some.inj (h.back.symm.trans h'.back)

end Counterpart

/-- Other slots than those that are bound remain counterparts. -/
theorem Counterpart.extend (h : Counterpart s s' m m')
    (hroot : ∀ i, (s.extend k value).root i = if (s.root i).slot? = some k then value else s.root i)
    (hroot' : ∀ i, (s'.extend k' value').root i =
      if (s'.root i).slot? = some k' then value' else s'.root i) (hne : m ≠ k) (hne' : m' ≠ k') :
    Counterpart (s.extend k value) (s'.extend k' value') m m' := by
  refine ⟨?_, ?_⟩
  · rw [hroot', h.forth, if_neg (by simpa using hne'), h.forth]
  · rw [hroot, h.back, if_neg (by simpa using hne), h.back]

/-- It does not matter which of two walks is compared with the other. -/
theorem Meets.symm (h : Meets s s' e e') : Meets s' s e' e := by
  cases h with
  | same hslot => exact .same hslot
  | free hslot hslot' hpart => exact .free hslot' hslot hpart.symm

/-- A substitution with definite values mirrors itself. -/
theorem Settles.mirrors_self (h : s.Settles)
    (hdefinite : ∀ binding ∈ s.bindings, binding.2.term.isDefinite) : Mirrors s s := by
  refine ⟨h, h, hdefinite, hdefinite, fun i => ?_⟩
  cases hslot : (s.root i).slot? with
  | none => exact .same hslot
  | some k =>
    have hroot : (s.root k).slot? = some k := by
      rw [root_of_free (h.valueAt_of_root hslot), Occurrence.slot?_ofSlot]
    exact .free hslot hslot ⟨hroot, hroot⟩

namespace Mirrors

/-- A substitution mirrors one that mirrors it. -/
theorem symm (h : Mirrors s s') : Mirrors s' s :=
  ⟨h.settles', h.settles, h.definite', h.definite, fun i => (h.meets i).symm⟩

variable (h : Mirrors s s')
include h

/-- Counterparts are free. -/
theorem valueAt_of_counterpart (hpart : Counterpart s s' k k') :
    s.valueAt k = none ∧ s'.valueAt k' = none :=
  ⟨h.settles.valueAt_of_root hpart.back, h.settles'.valueAt_of_root hpart.forth⟩

/-- A slot ends at a free slot where it ends at the counterpart in the other substitution. -/
theorem slot?_root_iff (hpart : Counterpart s s' k k') :
    (s.root i).slot? = some k ↔ (s'.root i).slot? = some k' := by
  have hmeets := h.meets i
  revert hmeets
  generalize s.root i = e
  generalize s'.root i = e'
  intro hmeets
  cases hmeets with
  | same hslot => simp [hslot]
  | free hslot hslot' hother =>
    rw [hslot, hslot', Option.some.injEq, Option.some.injEq]
    exact hother.eq_iff hpart

/-- Occurrences end alike, as their slots do. -/
theorem deref_meets (o : Occurrence) : Meets s s' (s.deref o) (s'.deref o) := by
  cases hslot : o.slot? with
  | none =>
    have hself : ∀ s : Substitution, s.deref o = o := fun s =>
      deref_of_settled (by rw [Settled, follow, hslot, Option.bind_none])
    rw [hself, hself]
    exact .same hslot
  | some i =>
    have hmeets := h.meets i
    generalize hroot : s.root i = e at hmeets
    generalize hroot' : s'.root i = e' at hmeets
    cases hmeets with
    | same hnone =>
      have hend : ∀ {s : Substitution}, s.Settles → s.root i = e → s.deref o = e := by
        intro s hs hroot
        rcases hs.deref_eq_root hslot with heq | ⟨hfree, _⟩
        · rw [heq, hroot]
        · rw [← hroot, root_of_free hfree] at hnone
          cases hnone
      rw [hend h.settles hroot, hend h.settles' hroot']
      exact .same hnone
    | free hfirst hsecond hpart =>
      refine .free ?_ ?_ hpart
      · rw [h.settles.slot?_deref hslot, hroot, hfirst]
      · rw [h.settles'.slot?_deref hslot, hroot', hsecond]

/-- Counterparts are bound to the same occurrence. -/
theorem assign (hpart : Counterpart s s' k k') (hslot : value.slot? = none)
    (hvalue : value.term.isDefinite) : Mirrors (s.extend k value) (s'.extend k' value) := by
  obtain ⟨hfree, hfree'⟩ := h.valueAt_of_counterpart hpart
  have hsettled : ∀ s : Substitution, s.Settled value := fun s => by
    rw [Settled, follow, hslot, Option.bind_none]
  have hself : ∀ k, value.slot? ≠ some k := fun k => by simp [hslot]
  have hroot := h.settles.root_extend hfree (hsettled s) (hself k)
  have hroot' := h.settles'.root_extend hfree' (hsettled s') (hself k')
  refine ⟨h.settles.extend (hsettled s) (hself k), h.settles'.extend (hsettled s') (hself k'),
    List.forall_mem_cons.2 ⟨hvalue, h.definite⟩, List.forall_mem_cons.2 ⟨hvalue, h.definite'⟩, ?_⟩
  intro i
  have hmeets := h.meets i
  rw [hroot, hroot']
  generalize s.root i = e at hmeets
  generalize s'.root i = e' at hmeets
  cases hmeets with
  | same hnone =>
    simp only [hnone, reduceCtorEq, if_false]
    exact .same hnone
  | @free _ m m' hm hm' hother =>
    have hiff := hother.eq_iff hpart
    simp only [hm, hm', Option.some.injEq]
    by_cases heq : m = k
    · rw [if_pos heq, if_pos (hiff.1 heq)]
      exact .same hslot
    · have hne' := mt hiff.2 heq
      rw [if_neg heq, if_neg hne']
      exact .free hm hm' (hother.extend hroot hroot' heq hne')

/-- Two slots are bound to each other, in the two substitutions in opposite directions. -/
theorem link (hpart : Counterpart s s' k k') (hother : Counterpart s s' m m') (hne : k ≠ m)
    (hslot : value.slot? = some m) (hslot' : value'.slot? = some k')
    (hvalue : value.term.isDefinite) (hvalue' : value'.term.isDefinite) :
    Mirrors (s.extend k value) (s'.extend m' value') := by
  obtain ⟨hfree, hfree'⟩ := h.valueAt_of_counterpart hpart
  obtain ⟨hfreeOther, hfreeOther'⟩ := h.valueAt_of_counterpart hother
  have hne' : k' ≠ m' := mt (hpart.eq_iff hother).2 hne
  have hsettled : s.Settled value := by rw [Settled, follow, hslot, Option.bind_some, hfreeOther]
  have hsettled' : s'.Settled value' := by rw [Settled, follow, hslot', Option.bind_some, hfree']
  have hself : value.slot? ≠ some k := by rw [hslot]; simpa using hne.symm
  have hself' : value'.slot? ≠ some m' := by rw [hslot']; simpa using hne'
  have hroot := h.settles.root_extend hfree hsettled hself
  have hroot' := h.settles'.root_extend hfreeOther' hsettled' hself'
  -- The slot that is left free in the one is the counterpart of the slot left free in the other.
  have hjoined : Counterpart (s.extend k value) (s'.extend m' value') m k' := by
    refine ⟨?_, ?_⟩
    · rw [hroot', hother.forth, if_pos rfl, hslot']
    · rw [hroot, hpart.back, if_pos rfl, hslot]
  refine ⟨h.settles.extend hsettled hself, h.settles'.extend hsettled' hself',
    List.forall_mem_cons.2 ⟨hvalue, h.definite⟩, List.forall_mem_cons.2 ⟨hvalue', h.definite'⟩, ?_⟩
  intro i
  have hmeets := h.meets i
  rw [hroot, hroot']
  generalize s.root i = e at hmeets
  generalize s'.root i = e' at hmeets
  cases hmeets with
  | same hnone =>
    simp only [hnone, reduceCtorEq, if_false]
    exact .same hnone
  | @free _ j j' hj hj' hend =>
    have hiff := hend.eq_iff hpart
    have hiffOther := hend.eq_iff hother
    simp only [hj, hj', Option.some.injEq]
    by_cases hk : j = k
    · obtain rfl := hiff.1 hk
      rw [if_pos hk, if_neg hne']
      exact .free hslot hj' hjoined
    · rw [if_neg hk]
      by_cases hm : j = m
      · rw [if_pos (hiffOther.1 hm)]
        exact .free (hm ▸ hj) hslot' hjoined
      · have hm' := mt hiffOther.2 hm
        rw [if_neg hm']
        exact .free hj hj' (hend.extend hroot hroot' hk hm')

/-- The terms at which slots end are the same. -/
theorem beneath_eq : s.Beneath = s'.Beneath := by
  funext i j
  have hmeets := h.meets i
  rw [Beneath, Beneath]
  revert hmeets
  generalize s.root i = e
  generalize s'.root i = e'
  intro hmeets
  cases hmeets with
  | same => rfl
  | free hslot hslot' =>
    rw [Occurrence.isVar_of_slot? hslot, Occurrence.isVar_of_slot? hslot']
    simp

/-- A free slot is reached from a term where its counterpart is reached from it. -/
theorem reaches_iff (hpart : Counterpart s s' k k') : s.Reaches t k ↔ s'.Reaches t k' := by
  obtain ⟨hfree, hfree'⟩ := h.valueAt_of_counterpart hpart
  simp only [h.settles.reaches_iff hfree, h.settles'.reaches_iff hfree', EndsAt, h.beneath_eq,
    h.slot?_root_iff hpart]

/-- What is followed from a definite occurrence is definite. -/
theorem isDefinite_deref (ho : o.term.isDefinite) : (s.deref o).term.isDefinite :=
  deref_keeps (motive := fun o => o.term.isDefinite) h.definite ho

end Mirrors

/-- The slot at which a slot ends, if it ends at one. -/
def counterpart (s' : Substitution) (slot : Nat) : Nat := (s'.root slot).slot?.getD slot

/-- A counterpart is where the slot ends in the other substitution. -/
theorem Counterpart.eq (h : Counterpart s s' k k') : s'.counterpart k = k' := by
  rw [counterpart, h.forth, Option.getD_some]

namespace Mirrors

variable (h : Mirrors s s')
include h

/-- Every free slot has a counterpart. -/
theorem exists_counterpart (hfree : s.valueAt k = none) : ∃ k', Counterpart s s' k k' := by
  have hmeets := h.meets k
  rw [root_of_free hfree] at hmeets
  generalize s'.root k = e' at hmeets
  cases hmeets with
  | same hnone => cases hnone
  | free hslot _ hpart =>
    obtain rfl := Option.some.inj hslot
    exact ⟨_, hpart⟩

/-- The free slots of the two substitutions correspond to each other. -/
theorem bijOn_counterpart :
    Set.BijOn s'.counterpart {k | s.valueAt k = none} {k | s'.valueAt k = none} := by
  refine ⟨fun k hk => ?_, fun k hk m hm heq => ?_, fun k' hk' => ?_⟩
  · obtain ⟨k', hpart⟩ := h.exists_counterpart hk
    rw [hpart.eq]
    exact (h.valueAt_of_counterpart hpart).2
  · obtain ⟨k', hpart⟩ := h.exists_counterpart hk
    obtain ⟨m', hother⟩ := h.exists_counterpart hm
    rw [hpart.eq, hother.eq] at heq
    exact (hpart.eq_iff hother).2 heq
  · obtain ⟨k, hpart⟩ := h.symm.exists_counterpart hk'
    exact ⟨k, (h.valueAt_of_counterpart hpart.symm).1, hpart.symm.eq⟩

/-- The solutions make the same of every term, up to the exchange of counterparts. -/
theorem relabel_solution (hs : s.Acyclic) (hs' : s'.Acyclic) (t : Term) :
    (t.assign s.solution).relabel s'.counterpart = (t.assign s'.solution).relabel id := by
  induction hextent : (t.assign s.solution).extent using Nat.strongRecOn generalizing t with
  | ind n ih =>
    subst hextent
    have hderef := hs.assign_deref (.whole 0 t)
    have hderef' := hs'.assign_deref (.whole 0 t)
    have hsettled := hs.settles.settled_deref (.whole 0 t)
    have hsettled' := hs'.settles.settled_deref (.whole 0 t)
    have hmeets := h.deref_meets (.whole 0 t)
    simp only [Occurrence.whole] at hderef hderef' hsettled hsettled' hmeets
    rw [← hderef, ← hderef']
    rw [← hderef] at ih
    generalize s.deref ⟨0, 0, t⟩ = e at *
    generalize s'.deref ⟨0, 0, t⟩ = e' at *
    cases hmeets with
    | same hnone =>
      cases hterm : e.term with
      | atom | number => rfl
      | var v =>
        rw [Occurrence.slot?, hterm, Term.slot?] at hnone
        simp [Term.assign, hnone, Var.relabel_of_index_eq_none]
      | compound functor args varCount =>
        rw [hterm, Term.assign_compound] at ih
        rw [Term.assign_compound, Term.assign_compound, Term.relabel_compound,
          Term.relabel_compound, List.map_map, List.map_map]
        congr 1
        refine List.map_congr_left fun arg harg => ih _ ?_ arg rfl
        have hlt := Term.extent_lt_extents_of_mem
          (List.mem_map_of_mem (f := Term.assign s.solution) harg)
        rw [Term.extent]
        omega
    | free hslot hslot' hpart =>
      obtain ⟨v, hv, hindex⟩ := Occurrence.exists_var_of_slot? hslot
      obtain ⟨v', hv', hindex'⟩ := Occurrence.exists_var_of_slot? hslot'
      obtain ⟨hfree, hfree'⟩ := h.valueAt_of_counterpart hpart
      rw [hv, hv', hs.assign_of_free (by rw [hindex, Option.bind_some, hfree]),
        hs'.assign_of_free (by rw [hindex', Option.bind_some, hfree']), Term.relabel_var,
        Term.relabel_var, Var.relabel_of_index _ hindex, Var.relabel_of_index _ hindex', hpart.eq,
        id]

end Mirrors

end ClauseResolution.Substitution
