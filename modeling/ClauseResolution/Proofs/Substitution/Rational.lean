import ClauseResolution.Proofs.Substitution.Satisfies
import ClauseResolution.Proofs.Term.Tree

/-!
# Cyclic substitutions and their trees

A substitution that was made without the occurs check may be cyclic. As long as following
variables ends, no slot is bound twice and values are plain, it still has a solution in
trees: the tree of a slot is what is met when its value is unfolded for ever. Following
variables does not change the tree an occurrence stands for.
-/

namespace ClauseResolution

/-- The trees satisfy the substitution: every slot that is bound has the tree of its value. -/
def Forest.Satisfies (A : Forest) (s : Substitution) : Prop :=
  ∀ slot value, (slot, value) ∈ s.bindings → (A slot).Agree (value.term.image A)

namespace Substitution

/-- Following variables ends, and no slot is bound twice. -/
structure Orderly (s : Substitution) : Prop where
  /-- Following variables ends. -/
  settles : s.Settles
  /-- No slot is bound twice. -/
  nodup : (s.bindings.map Prod.fst).Nodup

/-- The substitution may be cyclic, but it is orderly and values are plain. -/
structure Rational (s : Substitution) : Prop extends s.Orderly where
  /-- Values have named variables with slots, and no number that is not a number. -/
  plain : ∀ slot value, (slot, value) ∈ s.bindings → value.term.isPlain

variable {s : Substitution} {A : Forest} {o value : Occurrence} {slot : Nat}

/-- Binding a free slot to a settled value other than its own variable keeps a substitution
orderly. -/
theorem Orderly.extend (h : s.Orderly) (hfree : s.valueAt slot = none) (hsettled : s.Settled value)
    (hself : value.slot? ≠ some slot) : (s.extend slot value).Orderly :=
  ⟨h.settles.extend hsettled hself, List.nodup_cons.2 ⟨not_mem_slots_of_valueAt hfree, h.nodup⟩⟩

namespace Rational

variable (h : s.Rational)
include h

/-- What is followed from a plain occurrence is plain. -/
theorem isPlain_deref (ho : o.term.isPlain) : (s.deref o).term.isPlain :=
  isPlain_deref_of_plain h.plain ho

/-- Following variables does not change the tree an occurrence stands for. -/
theorem agree_deref (hA : A.NaNFree) (hs : A.Satisfies s) (ho : o.term.isPlain) :
    (o.term.image A).Agree ((s.deref o).term.image A) := by
  have hwithin : ∀ hops (o : Occurrence), o.term.isPlain →
      (o.term.image A).Agree ((s.followWithin hops o).term.image A) := by
    intro hops
    induction hops with
    | zero => exact fun o ho => .refl (Term.nanFree_image hA (Term.isNaNFree_of_isPlain ho))
    | succ hops ih =>
      intro o ho
      cases hfollow : s.follow o with
      | none =>
        rw [followWithin_of_settled hfollow]
        exact .refl (Term.nanFree_image hA (Term.isNaNFree_of_isPlain ho))
      | some value =>
        obtain ⟨i, hi, hvalue⟩ := Option.bind_eq_some_iff.1 hfollow
        have hmem := mem_bindings_of_valueAt hvalue
        rw [followWithin_of_follow hfollow]
        refine Tree.Agree.trans ?_ (ih value (h.plain i value hmem))
        rw [Term.image_of_slot? hi]
        exact hs i value hmem
  exact hwithin _ o ho

/-- Binding a free slot to a settled plain value other than its own variable keeps a
substitution rational. -/
theorem extend (hfree : s.valueAt slot = none) (hsettled : s.Settled value)
    (hself : value.slot? ≠ some slot) (hvalue : value.term.isPlain) :
    (s.extend slot value).Rational := by
  refine ⟨h.toOrderly.extend hfree hsettled hself, fun i other hmem => ?_⟩
  rcases List.mem_cons.1 hmem with heq | hmem
  · cases heq
    exact hvalue
  · exact h.plain i other hmem

end Rational

/-- What stands where following ended: the symbol of the term, or an atom for a free
variable. -/
def endSymbol (o : Occurrence) : Symbol :=
  match o.slot? with
  | some _ => .atom "_"
  | none => o.term.symbol

/-- An occurrence has as many arguments as the symbol of its end says. -/
theorem length_args_eq_arity (o : Occurrence) : o.args.length = (endSymbol o).arity := by
  obtain ⟨text, node, term⟩ := o
  rw [Occurrence.length_args, endSymbol, Occurrence.slot?]
  cases term with
  | var v => cases hv : v.index <;> simp [Term.slot?, hv, Term.args, Term.symbol, Symbol.arity]
  | atom | number | compound => exact Term.length_args_eq_arity _

/-- At the end of a plain term stands no number that is not a number. -/
theorem isNaN_endSymbol (ho : o.term.isPlain) : (endSymbol o).isNaN = false := by
  obtain ⟨text, node, term⟩ := o
  rw [endSymbol, Occurrence.slot?]
  cases term with
  | number value => simpa [Term.slot?, Term.symbol, Symbol.isNaN, Term.isPlain] using ho
  | var v => cases hv : v.index <;> simp [Term.slot?, hv, Term.symbol, Symbol.isNaN]
  | atom | compound => rfl

/-- A variable has no arguments. -/
theorem args_of_slot? (h : o.slot? = some slot) : o.args = [] := by
  refine List.eq_nil_of_length_eq_zero ?_
  rw [length_args_eq_arity, endSymbol, h]
  rfl

/-- The tree that is met when an occurrence is followed and what is there is taken apart,
for ever. -/
def unfold (s : Substitution) : Occurrence → Tree :=
  Tree.grow (fun o => endSymbol (s.deref o)) (fun o => (s.deref o).args)
    fun o => length_args_eq_arity (s.deref o)

/-- The tree of each slot. -/
def forest (s : Substitution) : Forest :=
  fun slot => s.unfold (.whole 0 (.var ⟨"X", some slot⟩))

/-- The tree that a term unfolds to has the symbol of its end at the root. -/
theorem root_unfold (s : Substitution) (o : Occurrence) :
    (s.unfold o).root = endSymbol (s.deref o) := Tree.root_grow _ o

/-- The arguments of the tree that a term unfolds to unfold from the arguments of its end. -/
theorem args_unfold (s : Substitution) (o : Occurrence) :
    (s.unfold o).args = (s.deref o).args.map s.unfold := Tree.args_grow _ o

namespace Rational

variable (h : s.Rational)
include h

/-- The arguments of what a plain occurrence is followed to are plain. -/
theorem isPlain_args_deref (ho : o.term.isPlain) : ∀ arg ∈ (s.deref o).args, arg.term.isPlain := by
  intro arg harg
  refine Term.isPlain_of_mem_args (h.isPlain_deref ho) ?_
  rw [← Occurrence.map_term_args]
  exact List.mem_map_of_mem harg

/-- No number in an unfolded tree is not a number. -/
theorem nanFree_unfold (ho : o.term.isPlain) : (s.unfold o).NaNFree := by
  intro u hu
  obtain ⟨o', ho', rfl⟩ : ∃ o', o'.term.isPlain ∧ u = s.unfold o' := by
    induction hu with
    | refl => exact ⟨o, ho, rfl⟩
    | tail _ hmem ih =>
      obtain ⟨o', ho', rfl⟩ := ih
      rw [args_unfold] at hmem
      obtain ⟨arg, harg, rfl⟩ := List.mem_map.1 hmem
      exact ⟨arg, h.isPlain_args_deref ho' arg harg, rfl⟩
  rw [root_unfold]
  exact isNaN_endSymbol (h.isPlain_deref ho')

/-- Occurrences that are followed to the same one unfold to the same tree. -/
theorem agree_unfold_of_deref_eq {o' : Occurrence} (ho : o.term.isPlain)
    (heq : s.deref o = s.deref o') : (s.unfold o).Agree (s.unfold o') := by
  obtain ⟨hroot, hargs⟩ := Tree.nanFree_iff.1 (h.nanFree_unfold ho)
  rw [Tree.Agree.iff_args, root_unfold s o', args_unfold s o', ← heq, ← root_unfold, ← args_unfold]
  exact ⟨Symbol.same_self hroot, List.forall₂_same.2 fun t ht => .refl (hargs t ht)⟩

/-- Variables of one slot unfold to the same tree, whatever their names. -/
theorem agree_unfold_of_slot? {o' : Occurrence} (ho : o.term.isPlain) (hslot : o.slot? = some slot)
    (hslot' : o'.slot? = some slot) : (s.unfold o).Agree (s.unfold o') := by
  have hfollow : ∀ o : Occurrence, o.slot? = some slot → s.follow o = s.valueAt slot := by
    intro o hslot
    rw [follow, hslot, Option.bind_some]
  cases hvalue : s.valueAt slot with
  | some value =>
    refine h.agree_unfold_of_deref_eq ho ?_
    rw [h.settles.deref_of_follow ((hfollow o hslot).trans hvalue),
      h.settles.deref_of_follow ((hfollow o' hslot').trans hvalue)]
  | none =>
    -- Both are free variables, at which nothing can be told apart.
    have hend : ∀ o : Occurrence, o.slot? = some slot → endSymbol (s.deref o) = .atom "_" ∧
        (s.deref o).args = [] := by
      intro o hslot
      rw [deref_of_settled ((hfollow o hslot).trans hvalue), endSymbol, hslot]
      exact ⟨rfl, args_of_slot? hslot⟩
    rw [Tree.Agree.iff_args, root_unfold, root_unfold, args_unfold, args_unfold, (hend o hslot).1,
      (hend o' hslot').1, (hend o hslot).2, (hend o' hslot').2]
    exact ⟨Symbol.same_self rfl, .nil⟩

/-- With the trees of the slots, a plain term stands for the tree it unfolds to. -/
theorem agree_image_forest (ho : o.term.isPlain) : (o.term.image s.forest).Agree (s.unfold o) := by
  intro depth
  induction depth generalizing o with
  | zero => trivial
  | succ depth ih =>
    cases hslot : o.slot? with
    | some slot =>
      rw [Term.image_of_slot? hslot, forest]
      exact h.agree_unfold_of_slot? (by rfl) rfl hslot (depth + 1)
    | none =>
      have hsettled : s.deref o = o := deref_of_settled (by rw [Settled, follow, hslot]; rfl)
      have hplain := h.isPlain_args_deref ho
      rw [hsettled] at hplain
      obtain ⟨hroot, hargs⟩ := Term.image_of_slot?_eq_none (A := s.forest) hslot
      rw [Tree.AgreeUpTo, hroot, hargs, root_unfold, args_unfold, hsettled, ← o.map_term_args,
        List.map_map, List.forall₂_map_left_iff, List.forall₂_map_right_iff, List.forall₂_same]
      refine ⟨?_, fun arg harg => ih (hplain arg harg)⟩
      have hend : endSymbol o = o.term.symbol := by rw [endSymbol, hslot]
      rw [← hend]
      exact Symbol.same_self (isNaN_endSymbol ho)

/-- No number in the trees of the slots is not a number. -/
theorem nanFree_forest : s.forest.NaNFree := fun _ => h.nanFree_unfold (by rfl)

/-- The trees of the slots satisfy the substitution. -/
theorem satisfies_forest : s.forest.Satisfies s := by
  intro slot value hmem
  have hfollow : s.follow (.whole 0 (.var ⟨"X", some slot⟩)) = some value :=
    (valueAt_eq_some_iff_of_nodup h.nodup).2 hmem
  have hunfold : (s.forest slot).Agree (s.unfold value) :=
    h.agree_unfold_of_deref_eq (by rfl) (h.settles.deref_of_follow hfollow)
  exact hunfold.trans (h.agree_image_forest (h.plain slot value hmem)).symm

end Rational

end Substitution

end ClauseResolution
