import ClauseResolution.Term.Basic

/-!
# Equality of terms

Terms are compared node by node from a list of pairs still to be compared, so that
long lists need no deep recursion. Two comparisons share the walk: `same` follows
the identity of variables and the values of numbers and ignores stored counts,
`identical` compares everything and decides equality.
-/

namespace ClauseResolution.Term

/-- Two nodes agree when their arguments are left aside: same functor and arity, same
variable, or equal constants. -/
def sameNode : Term → Term → Bool
  | .atom a, .atom b => a == b
  | .number m, .number n => m.same n
  | .var v, .var w => v.same w
  | .compound f as _, .compound g bs _ => f == g && as.length == bs.length
  | _, _ => false

/-- Two nodes agree in everything but their arguments. -/
def identicalNode : Term → Term → Bool
  | .atom a, .atom b => a == b
  | .number m, .number n => decide (m = n)
  | .var v, .var w => decide (v = w)
  | .compound f as m, .compound g bs n => f == g && m == n && as.length == bs.length
  | _, _ => false

/-- The terms of some pairs have no larger extent than the list they are taken from. -/
theorem extents_zip_le (as bs : List Term) : extents ((as.zip bs).map Prod.fst) ≤ extents as := by
  induction as generalizing bs with
  | nil => simp [extents]
  | cons a as ih =>
    cases bs with
    | nil => simp [extents]
    | cons b bs =>
      have := ih bs
      simp only [List.zip_cons_cons, List.map_cons, extents]
      omega

/-- Every pair of the list agrees, at its nodes and below them. -/
def agreeAll (node : Term → Term → Bool) : List (Term × Term) → Bool
  | [] => true
  | (a, b) :: rest => node a b && agreeAll node (a.args.zip b.args ++ rest)
termination_by pairs => extents (pairs.map Prod.fst)
decreasing_by
  have hargs := extents_zip_le a.args b.args
  have hnode := extent_eq a
  simp only [List.map_append, List.map_cons, extents_append, extents]
  omega

/-- Structural equality of terms that were built apart: variables by identity, numbers by
kind and value. A number that is not a number equals no number, itself included. -/
def same (a b : Term) : Bool := agreeAll sameNode [(a, b)]

/-- Equality in every stored detail. -/
def identical (a b : Term) : Bool := agreeAll identicalNode [(a, b)]

/-- Lists of one length are equal when they agree at every position. -/
theorem eq_iff_forall_mem_zip {as bs : List Term} (h : as.length = bs.length) :
    as = bs ↔ ∀ p ∈ as.zip bs, p.1 = p.2 := by
  induction as generalizing bs with
  | nil => simp [List.length_eq_zero_iff.1 h.symm]
  | cons a as ih =>
    cases bs with
    | nil => simp at h
    | cons b bs => simp [ih (by simpa using h)]

/-- A term is given by its node and its arguments. -/
theorem eq_iff_identicalNode {a b : Term} :
    a = b ↔ identicalNode a b = true ∧ ∀ p ∈ a.args.zip b.args, p.1 = p.2 := by
  cases a <;> cases b <;> simp [identicalNode, args]
  case compound.compound f as m g bs n =>
    constructor
    · rintro ⟨rfl, rfl, rfl⟩
      exact ⟨⟨⟨rfl, rfl⟩, rfl⟩, fun a b h => (eq_iff_forall_mem_zip rfl).1 rfl (a, b) h⟩
    · rintro ⟨⟨⟨rfl, rfl⟩, hlength⟩, hargs⟩
      exact ⟨rfl, (eq_iff_forall_mem_zip hlength).2 fun p hp => hargs p.1 p.2 hp, rfl⟩

/-- Comparing nodes in every detail decides equality of all pairs. -/
theorem agreeAll_identicalNode (pairs : List (Term × Term)) :
    agreeAll identicalNode pairs = true ↔ ∀ p ∈ pairs, p.1 = p.2 := by
  fun_induction agreeAll identicalNode pairs with
  | case1 => simp
  | case2 a b rest ih =>
    rw [Bool.and_eq_true, ih, List.forall_mem_cons, List.forall_mem_append, ← and_assoc,
      ← eq_iff_identicalNode]

/-- Equality in every stored detail is equality. -/
theorem identical_iff {a b : Term} : identical a b = true ↔ a = b := by
  simp [identical, agreeAll_identicalNode]

/-- Equality of terms is decided by the walk over pairs. -/
instance : DecidableEq Term := fun _ _ => decidable_of_iff _ identical_iff

end ClauseResolution.Term
