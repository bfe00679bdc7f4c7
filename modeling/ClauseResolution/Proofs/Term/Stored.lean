import ClauseResolution.Proofs.Term.Same
import ClauseResolution.Term.Layout

/-!
# Equality of stored terms

Stored terms are compared without going through what stands in one place. So a term equals
itself where it is stored, while a copy that was built apart is not equal to it when some
number in it is not a number. Apart from such numbers the places do not matter: terms are
equal, wherever they are stored, exactly when they are the same.
-/

namespace ClauseResolution

namespace Occurrence

/-- An argument of an occurrence is an argument of its term. -/
theorem term_mem_args {a arg : Occurrence} (h : arg ∈ a.args) : arg.term ∈ a.term.args := by
  rw [← map_term_args]
  exact List.mem_map_of_mem h

/-- The pairs of arguments of two occurrences are those of their terms. -/
theorem map_term_zip_args (a b : Occurrence) :
    (a.args.zip b.args).map (Prod.map term term) = a.term.args.zip b.term.args := by
  rw [← List.zip_map, map_term_args, map_term_args]

/-- A pair of arguments of two occurrences is a pair of arguments of their terms. -/
theorem mem_zip_args_term {a b : Occurrence} {p : Occurrence × Occurrence}
    (hp : p ∈ a.args.zip b.args) : (p.1.term, p.2.term) ∈ a.term.args.zip b.term.args := by
  rw [← map_term_zip_args]
  exact List.mem_map_of_mem hp

/-- What passes from terms to their arguments passes from two occurrences to the pairs of their
arguments. -/
theorem forall_zip_args {motive : Term → Prop}
    (hargs : ∀ {t u : Term}, motive u → t ∈ u.args → motive t) {a b : Occurrence}
    (ha : motive a.term) (hb : motive b.term) :
    ∀ p ∈ a.args.zip b.args, motive p.1.term ∧ motive p.2.term := by
  intro p hp
  obtain ⟨hfst, hsnd⟩ := List.of_mem_zip hp
  exact ⟨hargs ha (term_mem_args hfst), hargs hb (term_mem_args hsnd)⟩

/-- The pairs of arguments of the same two terms are pairs of the same terms. -/
theorem exists_mem_zip_args {a b a' b' : Occurrence} (ha : a.term = a'.term)
    (hb : b.term = b'.term) {p' : Occurrence × Occurrence} (hp : p' ∈ a'.args.zip b'.args) :
    ∃ p ∈ a.args.zip b.args, p.1.term = p'.1.term ∧ p.2.term = p'.2.term := by
  have hmem := mem_zip_args_term hp
  rw [← ha, ← hb, ← map_term_zip_args] at hmem
  obtain ⟨p, hmem, heq⟩ := List.mem_map.1 hmem
  exact ⟨p, hmem, (Prod.mk.inj heq).1, (Prod.mk.inj heq).2⟩

/-- The arguments of one term in two places are the same terms. -/
theorem term_eq_of_mem_zip_args {a b : Occurrence} (h : a.term = b.term) :
    ∀ p ∈ a.args.zip b.args, p.1.term = p.2.term := by
  intro p hp
  have hmem := mem_zip_args_term hp
  rw [h] at hmem
  exact (Term.eq_iff_forall_mem_zip rfl).1 rfl _ hmem

end Occurrence

namespace Layout

variable {layout : Layout} {pairs : List (Occurrence × Occurrence)} {o o' : Occurrence}

/-- Terms that are the same are equal, wherever they are stored. -/
theorem equalAll_of_same (h : ∀ p ∈ pairs, p.1.term.same p.2.term) :
    layout.equalAll pairs = true := by
  fun_induction equalAll layout pairs with
  | case1 => rfl
  | case2 l r rest _ ih => exact ih (List.forall_mem_cons.1 h).2
  | case3 l r rest _ ih =>
    obtain ⟨hfirst, hrest⟩ := List.forall_mem_cons.1 h
    obtain ⟨hnode, hargs⟩ := Term.same_iff.1 hfirst
    rw [hnode, Bool.true_and]
    refine ih (List.forall_mem_append.2 ⟨fun p hp => ?_, hrest⟩)
    exact hargs _ (Occurrence.mem_zip_args_term hp)

/-- Terms that are equal where they are stored are the same, unless some number in them is not a
number. -/
theorem same_of_equalAll (h : layout.equalAll pairs = true)
    (hfree : ∀ p ∈ pairs, p.1.term.isNaNFree) : ∀ p ∈ pairs, p.1.term.same p.2.term := by
  fun_induction equalAll layout pairs with
  | case1 => exact List.forall_mem_nil _
  | case2 l r rest hshares ih =>
    obtain ⟨hfirst, hrest⟩ := List.forall_mem_cons.1 hfree
    refine List.forall_mem_cons.2 ⟨?_, ih h hrest⟩
    rw [← term_eq_of_shares hshares]
    exact Term.same_self hfirst
  | case3 l r rest _ ih =>
    obtain ⟨hfirst, hrest⟩ := List.forall_mem_cons.1 hfree
    rw [Bool.and_eq_true] at h
    have hargs : ∀ p ∈ l.args.zip r.args, p.1.term.isNaNFree := fun p hp =>
      Term.isNaNFree_of_mem_args hfirst (Occurrence.term_mem_args (List.of_mem_zip hp).1)
    have hall := ih h.2 (List.forall_mem_append.2 ⟨hargs, hrest⟩)
    obtain ⟨hbelow, hafter⟩ := List.forall_mem_append.1 hall
    refine List.forall_mem_cons.2 ⟨Term.same_iff.2 ⟨h.1, fun q hq => ?_⟩, hafter⟩
    rw [← Occurrence.map_term_zip_args] at hq
    obtain ⟨p, hp, rfl⟩ := List.mem_map.1 hq
    exact hbelow p hp

/-- Without numbers that are not numbers, terms are equal where they are stored exactly when they
are the same. -/
theorem equal_eq_same (layout : Layout) (h : o.term.isNaNFree) :
    layout.equal o o' = o.term.same o'.term := by
  rw [Bool.eq_iff_iff]
  constructor
  · intro hequal
    exact same_of_equalAll hequal (List.forall_mem_singleton.2 h) _ (List.mem_singleton.2 rfl)
  · intro hsame
    exact equalAll_of_same (List.forall_mem_singleton.2 hsame)

/-- A constant or a variable stands in no place of its own, so it is compared. -/
theorem equal_eq_sameNode (layout : Layout) (h : o.term.toCompound? = none) :
    layout.equal o o' = o.term.sameNode o'.term := by
  have hshares : layout.shares o o' = false := by
    rw [shares, Occurrence.isCompound, h]
    rfl
  have hargs : o.args = [] := by
    rw [← List.map_eq_nil_iff (f := Occurrence.term), Occurrence.map_term_args]
    cases hterm : o.term with
    | compound => simp [hterm, Term.toCompound?] at h
    | atom | number | var => rfl
  rw [equal, equalAll, hshares, hargs, List.zip_nil_left, List.nil_append, equalAll]
  simp

/-- The term `f(NaN)` equals itself where it is stored, and no copy of itself. -/
example :
    let t : Term := .apply "f" [.number (.float ⟨0x7ff8000000000000⟩)]
    byOccurrence.equal (.whole 0 t) (.whole 0 t) = true ∧
      byOccurrence.equal (.whole 0 t) (.whole 1 t) = false := by
  decide +kernel

end Layout

end ClauseResolution
