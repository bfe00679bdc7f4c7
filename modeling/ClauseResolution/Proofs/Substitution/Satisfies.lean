import ClauseResolution.Proofs.Substitution.Resolve

/-!
# Assignments that satisfy a substitution

An assignment satisfies a substitution when it makes every bound variable the same as its
value. Following variables does then not change what an occurrence becomes, and no slot
becomes a larger term than a term from which it is reached. A regular substitution is
acyclic, binds no slot twice, and has plain values; its solution satisfies it.
-/

namespace ClauseResolution

/-- The assignment makes every bound variable the same as its value. -/
def Assignment.Satisfies (θ : Assignment) (s : Substitution) : Prop :=
  ∀ slot value, (slot, value) ∈ s.bindings → ∀ v : Var, v.index = some slot →
    ((Term.var v).assign θ).same (value.term.assign θ)

namespace Substitution

variable {s : Substitution} {θ : Assignment} {o value : Occurrence} {slot : Nat}

/-- What is bound stands in the list of bindings. -/
theorem mem_bindings_of_valueAt (h : s.valueAt slot = some value) :
    (slot, value) ∈ s.bindings := by
  obtain ⟨newer, older, hbindings, _⟩ := List.lookup_eq_some_iff.1 h
  simp [hbindings]

/-- A slot without a value is not bound. -/
theorem not_mem_slots_of_valueAt (h : s.valueAt slot = none) :
    slot ∉ s.bindings.map Prod.fst := by
  rw [valueAt, List.lookup_eq_none_iff] at h
  rintro hmem
  obtain ⟨binding, hbinding, rfl⟩ := List.mem_map.1 hmem
  simpa using h binding hbinding

/-- Where no slot is bound twice, whatever is bound to a slot is what is found there. -/
theorem valueAt_eq_some_iff_of_nodup (hnodup : (s.bindings.map Prod.fst).Nodup) :
    s.valueAt slot = some value ↔ (slot, value) ∈ s.bindings := by
  refine ⟨mem_bindings_of_valueAt, fun hmem => ?_⟩
  cases hvalue : s.valueAt slot with
  | none => exact absurd (List.mem_map.2 ⟨_, hmem, rfl⟩) (not_mem_slots_of_valueAt hvalue)
  | some other =>
    have heq := List.inj_on_of_nodup_map hnodup (mem_bindings_of_valueAt hvalue) hmem rfl
    rw [(Prod.mk.inj heq).2]

/-- Following an occurrence leads nowhere or to the value of a slot. -/
theorem deref_eq_or_valueAt (s : Substitution) (o : Occurrence) :
    s.deref o = o ∨ ∃ slot, s.valueAt slot = some (s.deref o) := by
  have hwithin : ∀ hops o, s.followWithin hops o = o ∨
      ∃ slot, s.valueAt slot = some (s.followWithin hops o) := by
    intro hops
    induction hops with
    | zero => exact fun o => Or.inl rfl
    | succ hops ih =>
      intro o
      cases hfollow : s.follow o with
      | none => exact Or.inl (followWithin_of_settled hfollow _)
      | some value =>
        obtain ⟨i, _, hvalue⟩ := Option.bind_eq_some_iff.1 hfollow
        rw [followWithin_of_follow hfollow]
        rcases ih value with heq | hat
        · exact Or.inr ⟨i, by rw [heq]; exact hvalue⟩
        · exact Or.inr hat
  exact hwithin _ o

/-- What holds of all values holds of what is followed from an occurrence of which it holds. -/
theorem deref_keeps {motive : Occurrence → Prop}
    (hvalues : ∀ binding ∈ s.bindings, motive binding.2) (ho : motive o) :
    motive (s.deref o) := by
  rcases s.deref_eq_or_valueAt o with heq | ⟨slot, hvalue⟩
  · rwa [heq]
  · exact hvalues _ (mem_bindings_of_valueAt hvalue)

/-- Where values are plain, what is followed from a plain occurrence is plain. -/
theorem isPlain_deref_of_plain
    (hplain : ∀ slot value, (slot, value) ∈ s.bindings → value.term.isPlain)
    (ho : o.term.isPlain) : (s.deref o).term.isPlain :=
  deref_keeps (motive := fun o => o.term.isPlain) (fun _ hmem => hplain _ _ hmem) ho

/-- A new binding is one more condition. -/
theorem satisfies_extend_iff : θ.Satisfies (s.extend slot value) ↔
    (∀ v : Var, v.index = some slot → ((Term.var v).assign θ).same (value.term.assign θ)) ∧
      θ.Satisfies s := by
  constructor
  · intro h
    refine ⟨fun v hv => h slot value List.mem_cons_self v hv, fun i other hmem => ?_⟩
    exact h i other (List.mem_cons_of_mem _ hmem)
  · rintro ⟨hnew, hold⟩ i other hmem
    rcases List.mem_cons.1 hmem with heq | hmem
    · cases heq
      exact hnew
    · exact hold i other hmem

/-- A bound variable becomes the same as its value. -/
theorem same_of_follow (h : θ.Satisfies s) (hfollow : s.follow o = some value) :
    (o.term.assign θ).same (value.term.assign θ) := by
  obtain ⟨i, hi, hvalue⟩ := Option.bind_eq_some_iff.1 hfollow
  have hmem := mem_bindings_of_valueAt hvalue
  obtain ⟨text, node, term⟩ := o
  cases term with
  | var v => exact h i value hmem v hi
  | atom | number | compound => simp [Occurrence.slot?, Term.slot?] at hi

/-- What is reached from a term becomes no larger than the term. -/
theorem extent_assign_le_of_reaches (h : θ.Satisfies s) {t : Term} (hreach : s.Reaches t slot)
    {v : Var} (hv : v.index = some slot) :
    ∃ i ∈ t.slots, ∀ w : Var, w.index = some i →
      ((Term.var v).assign θ).extent ≤ ((Term.var w).assign θ).extent := by
  obtain ⟨i, hi, hpath⟩ := hreach
  refine ⟨i, hi, ?_⟩
  clear hi
  induction hpath using Relation.ReflTransGen.head_induction_on with
  | refl => exact fun w hw => Term.extent_assign_var_le hv (Term.mem_slots_var.2 hw)
  | @head i j hleads _ ih =>
    intro w hw
    obtain ⟨value, hvalue, hj⟩ := hleads
    let next : Var := ⟨w.name, some j⟩
    calc ((Term.var v).assign θ).extent
        ≤ ((Term.var next).assign θ).extent := ih next rfl
      _ ≤ (value.term.assign θ).extent := Term.extent_assign_var_le rfl hj
      _ = ((Term.var w).assign θ).extent := by
        have hsame := h i value (mem_bindings_of_valueAt hvalue) w hw
        exact (Term.extent_eq_of_same hsame).symm

/-- A slot that is reached from a term other than a variable becomes a smaller term. -/
theorem extent_assign_lt_of_reaches (h : θ.Satisfies s) {t : Term} (hreach : s.Reaches t slot)
    (ht : t.slot? = none) {v : Var} (hv : v.index = some slot) :
    ((Term.var v).assign θ).extent < (t.assign θ).extent := by
  obtain ⟨i, hi, hle⟩ := extent_assign_le_of_reaches h hreach hv
  let inner : Var := ⟨v.name, some i⟩
  calc ((Term.var v).assign θ).extent
      ≤ ((Term.var inner).assign θ).extent := hle inner rfl
    _ < (t.assign θ).extent := Term.extent_assign_var_lt rfl hi ht

/-- The substitution is acyclic, binds no slot twice, and binds plain terms. -/
structure Regular (s : Substitution) : Prop where
  /-- No slot leads to itself. -/
  acyclic : s.Acyclic
  /-- No slot is bound twice. -/
  nodup : (s.bindings.map Prod.fst).Nodup
  /-- Values have named variables with slots, and no number that is not a number. -/
  plain : ∀ slot value, (slot, value) ∈ s.bindings → value.term.isPlain

/-- A substitution without bindings is regular. -/
theorem regular_of_bindings_eq_nil (h : s.bindings = []) : s.Regular :=
  ⟨acyclic_of_bindings_eq_nil h, by simp [h], by simp [h]⟩

namespace Regular

variable (h : s.Regular)
include h

/-- Whatever is bound to a slot is what is found there. -/
theorem valueAt_eq_some_iff : s.valueAt slot = some value ↔ (slot, value) ∈ s.bindings :=
  valueAt_eq_some_iff_of_nodup h.nodup

/-- What is followed from a plain occurrence is plain. -/
theorem isPlain_deref (ho : o.term.isPlain) : (s.deref o).term.isPlain :=
  isPlain_deref_of_plain h.plain ho

/-- Following variables does not change what an occurrence becomes. -/
theorem same_deref (hθ : θ.NaNFree) (hs : θ.Satisfies s) (ho : o.term.isPlain) :
    (o.term.assign θ).same ((s.deref o).term.assign θ) := by
  have hwithin : ∀ hops (o : Occurrence), o.term.isPlain →
      (o.term.assign θ).same ((s.followWithin hops o).term.assign θ) := by
    intro hops
    induction hops with
    | zero => exact fun o ho => Term.assign_same_self hθ (Term.isNaNFree_of_isPlain ho)
    | succ hops ih =>
      intro o ho
      cases hfollow : s.follow o with
      | none =>
        rw [followWithin_of_settled hfollow]
        exact Term.assign_same_self hθ (Term.isNaNFree_of_isPlain ho)
      | some value =>
        obtain ⟨i, _, hvalue⟩ := Option.bind_eq_some_iff.1 hfollow
        rw [followWithin_of_follow hfollow]
        refine Term.same_trans (same_of_follow hs hfollow) (ih value ?_)
        exact h.plain i value (mem_bindings_of_valueAt hvalue)
  exact hwithin _ o ho

/-- The solution has no number that is not a number. -/
theorem solution_NaNFree : s.solution.NaNFree := by
  intro slot
  induction slot using h.acyclic.induction with
  | step i ih =>
    intro t ht
    have hsolves := h.acyclic.solves_solution i
    rw [Solves, ht] at hsolves
    obtain ⟨value, hvalue, rfl⟩ := Option.map_eq_some_iff.1 hsolves.symm
    refine Term.isNaNFree_assign (fun j hj => ih j ⟨value, hvalue, hj⟩) ?_
    exact Term.isNaNFree_of_isPlain (h.plain i value (mem_bindings_of_valueAt hvalue))

/-- The solution satisfies the substitution. -/
theorem solution_satisfies : s.solution.Satisfies s := by
  intro slot value hmem v hv
  have hsolves := h.acyclic.solves_solution slot
  rw [Solves, h.valueAt_eq_some_iff.2 hmem, Option.map_some] at hsolves
  rw [Term.assign_var_of_index hv, hsolves, Option.getD_some]
  have hplain := h.plain slot value hmem
  exact Term.assign_same_self h.solution_NaNFree (Term.isNaNFree_of_isPlain hplain)

/-- An assignment that satisfies the substitution does not tell a term from what the
solution makes of it. -/
theorem same_assign_solution (hθ : θ.NaNFree) (hs : θ.Satisfies s) {t : Term}
    (ht : t.isNaNFree) : ((t.assign s.solution).assign θ).same (t.assign θ) := by
  rw [← Term.assign_andThen]
  refine Term.assign_same_assign ht fun slot hslot => ?_
  clear hslot
  induction slot using h.acyclic.induction with
  | step i ih =>
    intro v hv
    have hsolves := h.acyclic.solves_solution i
    rw [Term.assign_andThen, Term.assign_var_of_index hv]
    cases hvalue : s.valueAt i with
    | none =>
      rw [Solves, hvalue, Option.map_none] at hsolves
      rw [hsolves, Option.getD_none]
      exact Term.assign_same_self hθ rfl
    | some value =>
      have hmem := mem_bindings_of_valueAt hvalue
      rw [Solves, hvalue, Option.map_some] at hsolves
      rw [hsolves, Option.getD_some, ← Term.assign_andThen]
      refine Term.same_trans ?_ (Term.same_symm (hs i value hmem v hv))
      refine Term.assign_same_assign (Term.isNaNFree_of_isPlain (h.plain i value hmem)) ?_
      exact fun j hj => ih j ⟨value, hvalue, hj⟩

/-- A binding of a free slot to a plain term from which it is not reached keeps a
substitution regular. -/
theorem extend (hfree : s.valueAt slot = none) (hreach : ¬ s.Reaches value.term slot)
    (hvalue : value.term.isPlain) : (s.extend slot value).Regular := by
  have hnodup := List.nodup_cons.2 ⟨not_mem_slots_of_valueAt hfree, h.nodup⟩
  refine ⟨h.acyclic.extend hfree hreach, hnodup, fun i other hmem => ?_⟩
  rcases List.mem_cons.1 hmem with heq | hmem
  · cases heq
    exact hvalue
  · exact h.plain i other hmem

end Regular

end Substitution

end ClauseResolution
