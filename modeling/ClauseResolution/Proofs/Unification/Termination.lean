import ClauseResolution.Proofs.Substitution.Resolve
import ClauseResolution.Proofs.Substitution.Satisfies
import ClauseResolution.Proofs.Term.Stored
import ClauseResolution.Proofs.Unification.Steps

/-!
# Checked unification ends

With the occurs check no binding closes a cycle, whatever the terms are. So in every state
of a unification the terms have a definite size once the substitution is applied to them.
A step that binds a variable leaves fewer free slots, and every other step leaves smaller
terms pending.
-/

namespace ClauseResolution

namespace Substitution

variable {s s' : Substitution} {layout : Layout} {l r : Occurrence}
  {entered pending : List (Occurrence × Occurrence)}

/-- The two sides of a binding are what the pair stands for. -/
theorem Treats.bind_sides {occursCheck : Bool} {v : Var} {value : Occurrence}
    (htreats : s.Treats layout occursCheck entered l r (.bind v value)) :
    (s.deref l).term = .var v ∧ value = s.deref r ∨
      (s.deref r).term = .var v ∧ value = s.deref l := by
  cases htreats with
  | link hleft hright hv hw hsame => exact Or.inl ⟨hleft, rfl⟩
  | assign hside ha hb hv hoccurs =>
    rcases hside with ⟨rfl, rfl⟩ | ⟨rfl, rfl⟩
    · exact Or.inl ⟨ha, rfl⟩
    · exact Or.inr ⟨ha, rfl⟩

/-- With the occurs check a slot is not reached from the value it is bound to. -/
theorem Treats.not_reaches {v : Var} {value : Occurrence} {slot : Nat}
    (htreats : s.Treats layout true entered l r (.bind v value)) (h : s.Settles)
    (hslot : v.index = some slot) : ¬ s.Reaches value.term slot := by
  have hfree : s.valueAt slot = none := (htreats.bind_free h).2 slot hslot
  cases htreats with
  | @link v w hleft hright hv hw hsame =>
    -- The other variable is free as well, so nothing else is reached from it.
    rintro ⟨k, hk, hpath⟩
    rw [hright, Term.mem_slots_var] at hk
    rcases hpath.cases_head with rfl | ⟨next, ⟨value, hvalue, _⟩, _⟩
    · rw [(Var.same_iff_index hslot).2 hk] at hsame
      cases hsame
    · rw [valueAt_of_deref_var h hright hk] at hvalue
      cases hvalue
  | assign hside ha hb hv hoccurs =>
    intro hreach
    have hfound : s.occurs v value.term = true := by
      refine (Store.occurs_iff _ _ v value.term).2 ⟨slot, hslot, ?_⟩
      rw [substitution_store]
      exact ⟨hfree, hreach⟩
    rw [hoccurs rfl] at hfound
    cases hfound

/-- With the occurs check a binding makes no cycle. -/
theorem Treats.acyclic_bind {v : Var} {value : Occurrence}
    (htreats : s.Treats layout true entered l r (.bind v value)) (h : s.Acyclic) :
    (s.bind v value).Acyclic := by
  rw [bind]
  cases hslot : v.index with
  | none => exact h
  | some slot =>
    have hfree : s.valueAt slot = none := (htreats.bind_free h.settles).2 slot hslot
    exact h.extend hfree (htreats.not_reaches h.settles hslot)

/-- The slots in the values and in the pending pairs are among those of a finite set. -/
structure Confined (s : Substitution) (slots : Finset Nat)
    (pending : List (Occurrence × Occurrence)) : Prop where
  /-- The slots in the values are in the set. -/
  values : ∀ slot value, (slot, value) ∈ s.bindings → ∀ i ∈ value.term.slots, i ∈ slots
  /-- The slots in the pairs are in the set. -/
  pairs : ∀ p ∈ pending, (∀ i ∈ p.1.term.slots, i ∈ slots) ∧ ∀ i ∈ p.2.term.slots, i ∈ slots

/-- The number of free slots in a finite set. -/
def freeCount (s : Substitution) (slots : Finset Nat) : Nat :=
  (slots.filter fun i => s.valueAt i = none).card

/-- The extent of the left sides once the substitution is applied. -/
def weight (s : Substitution) (pending : List (Occurrence × Occurrence)) : Nat :=
  Term.extents (pending.map fun p => p.1.term.assign s.solution)

/-- The slots of a substitution and of some pairs are confined to a finite set. -/
theorem exists_confined (s : Substitution) (pending : List (Occurrence × Occurrence)) :
    ∃ slots, s.Confined slots pending := by
  let ofValues := s.bindings.flatMap fun binding => binding.2.term.slots
  let ofPairs := pending.flatMap fun p => p.1.term.slots ++ p.2.term.slots
  refine ⟨(ofValues ++ ofPairs).toFinset, fun slot value hmem i hi => ?_, fun p hp => ⟨?_, ?_⟩⟩
  · exact List.mem_toFinset.2 (List.mem_append_left _ (List.mem_flatMap.2 ⟨_, hmem, hi⟩))
  · intro i hi
    refine List.mem_toFinset.2 (List.mem_append_right _ (List.mem_flatMap.2 ⟨p, hp, ?_⟩))
    exact List.mem_append_left _ hi
  · intro i hi
    refine List.mem_toFinset.2 (List.mem_append_right _ (List.mem_flatMap.2 ⟨p, hp, ?_⟩))
    exact List.mem_append_right _ hi

namespace Confined

variable {slots : Finset Nat}

/-- What is followed from an occurrence in the set stays there. -/
theorem deref (h : s.Confined slots pending) {o : Occurrence} (ho : ∀ i ∈ o.term.slots, i ∈ slots) :
    ∀ i ∈ (s.deref o).term.slots, i ∈ slots :=
  deref_keeps (motive := fun o => ∀ i ∈ o.term.slots, i ∈ slots) (fun _ => h.values _ _) ho

/-- The pairs after the first one. -/
theorem tail (h : s.Confined slots ((l, r) :: pending)) : s.Confined slots pending :=
  ⟨h.values, fun p hp => h.pairs p (List.mem_cons_of_mem _ hp)⟩

/-- The arguments of what the first pair stands for, before the other pairs. -/
theorem args (h : s.Confined slots ((l, r) :: pending)) :
    s.Confined slots ((s.deref l).args.zip (s.deref r).args ++ pending) := by
  obtain ⟨hl, hr⟩ := h.pairs (l, r) List.mem_cons_self
  refine ⟨h.values, List.forall_mem_append.2 ⟨fun p hp => ?_, h.tail.pairs⟩⟩
  obtain ⟨hfst, hsnd⟩ := List.of_mem_zip hp
  refine ⟨fun i hi => h.deref hl i ?_, fun i hi => h.deref hr i ?_⟩
  · exact Term.mem_slots_of_mem_args (Occurrence.term_mem_args hfst) hi
  · exact Term.mem_slots_of_mem_args (Occurrence.term_mem_args hsnd) hi

/-- A binding that the first pair calls for is one of a slot in the set, and to a term in
the set. -/
theorem bind {occursCheck : Bool} {v : Var} {value : Occurrence} {slot : Nat}
    (h : s.Confined slots ((l, r) :: pending))
    (htreats : s.Treats layout occursCheck entered l r (.bind v value))
    (hslot : v.index = some slot) :
    slot ∈ slots ∧ (s.bind v value).Confined slots pending := by
  obtain ⟨hl, hr⟩ := h.pairs (l, r) List.mem_cons_self
  have hmem : slot ∈ slots ∧ ∀ i ∈ value.term.slots, i ∈ slots := by
    rcases htreats.bind_sides with ⟨hside, rfl⟩ | ⟨hside, rfl⟩
    · exact ⟨h.deref hl slot (by rw [hside]; exact Term.mem_slots_var.2 hslot), h.deref hr⟩
    · exact ⟨h.deref hr slot (by rw [hside]; exact Term.mem_slots_var.2 hslot), h.deref hl⟩
  refine ⟨hmem.1, fun i other hbinding => ?_, h.tail.pairs⟩
  rw [Substitution.bind, hslot] at hbinding
  rcases List.mem_cons.1 hbinding with heq | hbinding
  · cases heq
    exact hmem.2
  · exact h.values i other hbinding

end Confined

/-- Binding a free slot leaves fewer free slots. -/
theorem freeCount_extend_lt {slots : Finset Nat} {slot : Nat} {value : Occurrence}
    (hslot : slot ∈ slots) (hfree : s.valueAt slot = none) :
    (s.extend slot value).freeCount slots < s.freeCount slots := by
  refine Finset.card_lt_card ⟨fun i hi => ?_, fun hsub => ?_⟩
  · obtain ⟨hi, hnone⟩ := Finset.mem_filter.1 hi
    rw [valueAt_extend] at hnone
    split at hnone
    · cases hnone
    · exact Finset.mem_filter.2 ⟨hi, hnone⟩
  · have hnone := (Finset.mem_filter.1 (hsub (Finset.mem_filter.2 ⟨hslot, hfree⟩))).2
    rw [valueAt_extend, if_pos rfl] at hnone
    cases hnone

/-- A binding that the first pair calls for leaves fewer free slots, unless the variable has
no slot and nothing is bound. -/
theorem Confined.bind_cases {slots : Finset Nat} {v : Var} {value : Occurrence}
    (hslots : s.Confined slots ((l, r) :: pending)) (h : s.Settles)
    {occursCheck : Bool} (htreats : s.Treats layout occursCheck entered l r (.bind v value)) :
    (s.bind v value).Confined slots pending ∧
      (s.bind v value = s ∨ (s.bind v value).freeCount slots < s.freeCount slots) := by
  cases hslot : v.index with
  | none =>
    have hsame : s.bind v value = s := by rw [Substitution.bind, hslot]
    rw [hsame]
    exact ⟨hslots.tail, Or.inl rfl⟩
  | some slot =>
    obtain ⟨hmem, hconfined⟩ := hslots.bind htreats hslot
    refine ⟨hconfined, Or.inr ?_⟩
    rw [Substitution.bind, hslot]
    exact freeCount_extend_lt hmem ((htreats.bind_free h).2 slot hslot)

/-- A pair that is left out makes the pending pairs lighter. -/
theorem weight_lt_cons (s : Substitution) (l r : Occurrence) :
    s.weight pending < s.weight ((l, r) :: pending) := by
  simp only [weight, List.map_cons, Term.extents]
  omega

/-- The arguments weigh less than what has them. -/
theorem Acyclic.weight_args_lt (h : s.Acyclic) (l r : Occurrence) :
    s.weight ((s.deref l).args.zip (s.deref r).args ++ pending) < s.weight ((l, r) :: pending) := by
  have hargs : s.weight ((s.deref l).args.zip (s.deref r).args) ≤
      Term.extents ((s.deref l).term.assign s.solution).args := by
    have hmap : ((s.deref l).args.zip (s.deref r).args).map (fun p => p.1.term.assign s.solution) =
        (((s.deref l).term.args.map (Term.assign s.solution)).zip
          (s.deref r).term.args).map Prod.fst := by
      rw [← Occurrence.map_term_args, ← Occurrence.map_term_args, List.map_map, List.zip_map,
        List.map_map]
      rfl
    rw [weight, hmap]
    refine (Term.extents_zip_le _ _).trans ?_
    cases (s.deref l).term with
    | compound functor args varCount => rw [Term.assign_compound, Term.args, Term.args]
    | atom | number | var => exact Nat.zero_le _
  have hnode := Term.extent_eq ((s.deref l).term.assign s.solution)
  rw [h.assign_deref l] at hnode hargs
  simp only [weight, List.map_append, Term.extents_append, List.map_cons, Term.extents] at hargs ⊢
  omega

/-- A checked unification ends. -/
theorem exists_unifyPairs_ne_unfinished {slots : Finset Nat} (h : s.Acyclic)
    (hslots : s.Confined slots pending) :
    ∃ steps, s.unifyPairs layout true steps entered pending ≠ .unfinished := by
  -- Either fewer slots are free, or as many are and less is pending.
  induction hfree : s.freeCount slots using Nat.strongRecOn generalizing s entered pending with
  | ind free ihfree =>
    induction hweight : s.weight pending using Nat.strongRecOn generalizing entered pending with
    | ind weight ihweight =>
      cases pending with
      | nil => exact ⟨0, by simp [unifyPairs]⟩
      | cons pair pending =>
        obtain ⟨l, r⟩ := pair
        have htreats := s.treats_pairStep layout true entered l r
        have htail : ∃ steps, s.unifyPairs layout true steps entered pending ≠ .unfinished :=
          ihweight _ (hweight ▸ weight_lt_cons s l r) hslots.tail rfl
        cases hstep : s.pairStep layout true entered l r with
        | skip =>
          obtain ⟨steps, hend⟩ := htail
          exact ⟨steps + 1, by simpa only [unifyPairs, hstep] using hend⟩
        | clash => exact ⟨1, by simp [unifyPairs, hstep]⟩
        | bind v value =>
          rw [hstep] at htreats
          obtain ⟨hconfined, hsame | hlt⟩ := hslots.bind_cases h.settles htreats
          · obtain ⟨steps, hend⟩ := htail
            exact ⟨steps + 1, by simpa only [unifyPairs, hstep, hsame] using hend⟩
          · obtain ⟨steps, hend⟩ : ∃ steps,
                (s.bind v value).unifyPairs layout true steps entered pending ≠ .unfinished :=
              ihfree _ (hfree ▸ hlt) (htreats.acyclic_bind h) hconfined rfl
            exact ⟨steps + 1, by simpa only [unifyPairs, hstep] using hend⟩
        | descend left right remember =>
          rw [hstep] at htreats
          cases htreats with
          | descend hleft hright hlength _ =>
            obtain ⟨steps, hend⟩ : ∃ steps, s.unifyPairs layout true steps
                (if remember then (s.deref l, s.deref r) :: entered else entered)
                ((s.deref l).args.zip (s.deref r).args ++ pending) ≠ .unfinished :=
              ihweight _ (hweight ▸ h.weight_args_lt l r) hslots.args rfl
            exact ⟨steps + 1, by simpa only [unifyPairs, hstep] using hend⟩

/-- The result of a checked unification is acyclic, and has fewer free slots unless nothing
was bound. -/
theorem Acyclic.unifyPairs {slots : Finset Nat} {steps : Nat} (h : s.Acyclic)
    (hslots : s.Confined slots pending)
    (hunified : s.unifyPairs layout true steps entered pending = .unified s') :
    s'.Acyclic ∧ s'.Confined slots [] ∧ (s' = s ∨ s'.freeCount slots < s.freeCount slots) := by
  induction steps generalizing s entered pending with
  | zero =>
    cases pending with
    | nil =>
      cases hunified
      exact ⟨h, hslots, Or.inl rfl⟩
    | cons pair pending => cases hunified
  | succ steps ih =>
    cases pending with
    | nil =>
      cases hunified
      exact ⟨h, hslots, Or.inl rfl⟩
    | cons pair pending =>
      obtain ⟨l, r⟩ := pair
      have htreats := s.treats_pairStep layout true entered l r
      rw [Substitution.unifyPairs] at hunified
      cases hstep : s.pairStep layout true entered l r with
      | skip =>
        rw [hstep] at hunified
        exact ih h hslots.tail hunified
      | clash => simp [hstep] at hunified
      | bind v value =>
        rw [hstep] at hunified htreats
        obtain ⟨hconfined, hbind⟩ := hslots.bind_cases h.settles htreats
        obtain ⟨hacyclic, hvalues, hrest⟩ := ih (htreats.acyclic_bind h) hconfined hunified
        refine ⟨hacyclic, hvalues, ?_⟩
        rcases hbind with hsame | hlt
        · rwa [hsame] at hrest
        · rcases hrest with rfl | hless
          · exact Or.inr hlt
          · exact Or.inr (hless.trans hlt)
      | descend left right remember =>
        rw [hstep] at hunified htreats
        cases htreats with
        | descend hleft hright hlength _ => exact ih h hslots.args hunified

/-- What a unification returns is acyclic if what it started from was, and the occurs check was
made. -/
theorem acyclic_of_unified {occursCheck : Bool} {steps : Nat}
    (h : occursCheck = true → s.Acyclic)
    (hunified : s.unifyPairs layout occursCheck steps entered pending = .unified s')
    (hcheck : occursCheck = true) : s'.Acyclic := by
  subst hcheck
  obtain ⟨slots, hslots⟩ := s.exists_confined pending
  exact ((h rfl).unifyPairs hslots hunified).1

end Substitution

end ClauseResolution
