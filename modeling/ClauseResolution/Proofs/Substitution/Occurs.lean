import ClauseResolution.Proofs.Substitution.Composition
import ClauseResolution.Proofs.Term.Reading
import ClauseResolution.Proofs.Unification.Reached

/-!
# The occurs test and rebuilt terms

Rebuilding a term puts the values of bound slots in their place until only free slots are left.
The occurs test goes through the same values without building anything. In an acyclic substitution
both come to the free slots that are reached from the term, and to no others, so the test looks
for a variable of the rebuilt term. A bound variable is never found.
-/

namespace ClauseResolution

/-- After an assignment a slot has given way to the slots of what is assigned to it. -/
theorem Term.slots_assign (θ : Assignment) (t : Term) :
    (t.assign θ).slots = t.slots.flatMap fun i => ((θ i).map slots).getD [i] := by
  induction t with
  | atom | number => rfl
  | var v =>
    cases hindex : v.index with
    | none => rw [assign, hindex, Option.bind_none, Option.getD_none, slots_var, hindex]; rfl
    | some i =>
      rw [assign_var_of_index hindex, slots_var, hindex, Option.toList_some, List.flatMap_singleton]
      cases θ i with
      | none => rw [Option.getD_none, slots_var, hindex]; rfl
      | some u => rfl
  | compound functor args varCount ih =>
    rw [assign_compound, slots_compound, slots_compound, List.flatMap_map, List.flatMap_assoc]
    exact List.flatMap_congr ih

namespace Substitution

variable {s : Substitution} {slot : Nat}

/-- What the solution makes of a slot are the free slots to which it leads. -/
theorem Acyclic.mem_slots_solution (h : s.Acyclic) (i : Nat) :
    slot ∈ ((s.solution i).map Term.slots).getD [i] ↔
      s.valueAt slot = none ∧ Relation.ReflTransGen s.Leads i slot := by
  induction i using h.induction with
  | step i ih =>
    have hsolves := h.solves_solution i
    rw [Solves] at hsolves
    cases hvalue : s.valueAt i with
    | none =>
      rw [hsolves, hvalue, Option.map_none, Option.map_none, Option.getD_none, List.mem_singleton]
      constructor
      · rintro rfl
        exact ⟨hvalue, .refl⟩
      · rintro ⟨_, hway⟩
        rcases hway.cases_head with rfl | ⟨next, ⟨value, hbound, _⟩, _⟩
        · rfl
        · rw [hvalue] at hbound
          cases hbound
    | some value =>
      have hleads : ∀ j, s.Leads i j ↔ j ∈ value.term.slots := fun j => by simp [Leads, hvalue]
      rw [hsolves, hvalue, Option.map_some, Option.map_some, Option.getD_some, Term.slots_assign,
        List.mem_flatMap]
      constructor
      · rintro ⟨j, hj, hslot⟩
        obtain ⟨hfree, hway⟩ := (ih j ((hleads j).2 hj)).1 hslot
        exact ⟨hfree, .head ((hleads j).2 hj) hway⟩
      · rintro ⟨hfree, hway⟩
        -- The slot itself is bound, so the way to a free slot goes on from its value.
        rcases hway.cases_head with rfl | ⟨j, hj, hrest⟩
        · rw [hvalue] at hfree
          cases hfree
        · exact ⟨j, (hleads j).1 hj, (ih j hj).2 ⟨hfree, hrest⟩⟩

/-- What the solution leaves in a term are the free slots that the term reaches. -/
theorem Acyclic.mem_slots_assign_solution (h : s.Acyclic) (t : Term) :
    slot ∈ (t.assign s.solution).slots ↔ s.valueAt slot = none ∧ s.Reaches t slot := by
  rw [Term.slots_assign, List.mem_flatMap, Reaches]
  simp only [h.mem_slots_solution]
  constructor
  · rintro ⟨i, hi, hfree, hway⟩
    exact ⟨hfree, i, hi, hway⟩
  · rintro ⟨hfree, i, hi, hway⟩
    exact ⟨i, hi, hfree, hway⟩

end Substitution

/-- The slots of a term are the indices of its variables. -/
theorem Term.mem_slots_iff {t : Term} {slot : Nat} :
    slot ∈ t.slots ↔ ∃ w : Var, .var w ∈ t.leaves ∧ w.index = some slot := by
  rw [slots, List.mem_filterMap]
  constructor
  · rintro ⟨leaf, hleaf, hslot⟩
    cases leaf with
    | var w => exact ⟨w, hleaf, hslot⟩
    | atom | number | compound => cases hslot
  · rintro ⟨w, hw, hindex⟩
    exact ⟨.var w, hw, hindex⟩

namespace Store

variable {σ : Store} {c : Context} {v : Var} {slot : Nat}

/-- In an acyclic context rebuilding a term and searching it for a variable with a slot both end,
and the search finds the variable exactly when a variable with that slot stands in the rebuilt
term. It does not find a variable that is bound. -/
theorem occurs_agrees_reify (h : (σ.substitution c).Acyclic) (hindex : v.index = some slot)
    (t : Term) :
    ∃ rebuilt, σ.reify c t = some rebuilt ∧ σ.Rebuilds c t rebuilt ∧
      σ.Searches c v [t] (σ.occurs c v t) ∧
      (σ.occurs c v t = true ↔ ∃ w : Var, .var w ∈ rebuilt.leaves ∧ w.index = some slot) ∧
      (σ.isBound c v = true → σ.occurs c v t = false) := by
  have hfound : σ.occurs c v t = true ↔ (σ.substitution c).valueAt slot = none ∧
      (σ.substitution c).Reaches t slot := by
    rw [occurs_iff, hindex]
    simp
  refine ⟨_, reify_eq_solution h t, rebuilds_of_acyclic h t, ?_, ?_, fun hbound => ?_⟩
  · simpa using searches_of_acyclic h v [t]
  · rw [hfound, ← h.mem_slots_assign_solution, Term.mem_slots_iff]
  · rw [isBound, valueOf, hindex, Option.bind_some, ← valueAt_substitution] at hbound
    rw [← Bool.not_eq_true, hfound]
    rintro ⟨hfree, _⟩
    rw [hfree] at hbound
    cases hbound

/-- With `X` bound to `f(Y)` and `Y` to `g(Z)`, the variable `Z` occurs in `h(X)`, which is rebuilt
to `h(f(g(Z)))`, and `Y`, which is bound, does not. -/
theorem occurs_agrees_reify_nested :
    let y : Var := ⟨"Y", some 1⟩
    let z : Var := ⟨"Z", some 2⟩
    let t : Term := .apply "h" [.var ⟨"X", some 0⟩]
    let σ : Store := ⟨#[⟨0, .whole 0 (.apply "f" [.var y]), 0⟩,
      ⟨1, .whole 0 (.apply "g" [.var z]), 1⟩]⟩
    (σ.substitution ⟨2, 3⟩).Acyclic ∧ σ.occurs ⟨2, 3⟩ z t = true ∧ σ.occurs ⟨2, 3⟩ y t = false := by
  intro y z t σ
  have hreached : Reached true σ ⟨2, 3⟩ := by
    have hfirst : Reached true ⟨#[⟨0, .whole 0 (.apply "f" [.var y]), 0⟩]⟩ ⟨1, 3⟩ :=
      (Reached.empty .empty |>.allocate 3).unify .byOccurrence true id 1
      (.whole 0 (.var ⟨"X", some 0⟩))
        (.whole 0 (.apply "f" [.var y])) (by cbv)
    exact hfirst.unify .byOccurrence true id 1 (.whole 0 (.var y)) (.whole 0 (.apply "g" [.var z]))
      (by cbv)
  have hacyclic := hreached.wellFounded.2.2 rfl
  obtain ⟨rebuilt, hrebuilt, _, _, hiff, _⟩ := occurs_agrees_reify hacyclic (v := z) rfl t
  obtain ⟨_, _, _, _, _, hbound⟩ := occurs_agrees_reify hacyclic (v := y) rfl t
  have horder : σ.slotOrder ⟨2, 3⟩ 2 [] [] [.visit t] = some [0, 1] := by cbv
  have heq : σ.reify ⟨2, 3⟩ t = some (.apply "h" [.apply "f" [.apply "g" [.var z]]]) := by
    rw [reify, horder]
    with_unfolding_all rfl
  rw [heq] at hrebuilt
  cases hrebuilt
  exact ⟨hacyclic, hiff.2 ⟨z, by simp [Term.apply], rfl⟩, hbound (by cbv)⟩

end Store

end ClauseResolution
