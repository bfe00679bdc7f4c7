import ClauseResolution.Term.Equality
import ClauseResolution.Term.Leaves
import Mathlib.Data.List.Forall2

/-!
# Equality of terms as a relation

Terms are the same when their nodes are the same from the root down. This is symmetric
and transitive, and every term is the same as itself unless it contains a number that is
not a number. Terms that are the same have the same extent.
-/

namespace ClauseResolution

/-- A number that is not a number. -/
def Number.isNaN : Number → Bool
  | .int _ => false
  | .float value => value.isNaN

namespace Number

variable {a b c : Number}

/-- A number is equal to itself unless it is not a number. -/
theorem same_self (h : a.isNaN = false) : a.same a := by
  cases a with
  | int value => simp [same]
  | float value =>
    rw [isNaN] at h
    simp [same, Binary64.same, h]

/-- Equality of numbers is symmetric. -/
theorem same_comm (a b : Number) : a.same b = b.same a := by
  cases a with
  | int m =>
    cases b with
    | int n => exact BEq.comm
    | float y => rfl
  | float x =>
    cases b with
    | int n => rfl
    | float y =>
      simp only [same, Binary64.same, eq_comm (a := x), Bool.and_comm (!x.isNaN),
        Bool.and_comm x.isZero]

/-- Equality of numbers is transitive. -/
theorem same_trans (h : a.same b) (h' : b.same c) : a.same c := by
  cases a <;> cases b <;> cases c <;> simp only [same, Bool.false_eq_true] at h h' ⊢
  · exact (eq_of_beq h).trans (eq_of_beq h') ▸ beq_self_eq_true _
  · simp only [Binary64.same, Bool.and_eq_true, Bool.or_eq_true, decide_eq_true_eq] at h h' ⊢
    obtain ⟨⟨hx, _⟩, hxy⟩ := h
    obtain ⟨⟨_, hz⟩, hyz⟩ := h'
    refine ⟨⟨hx, hz⟩, ?_⟩
    rcases hxy with rfl | ⟨hx, hy⟩
    · exact hyz
    · rcases hyz with rfl | ⟨_, hz⟩
      · exact Or.inr ⟨hx, hy⟩
      · exact Or.inr ⟨hx, hz⟩

/-- What is the same as a number is not a number that is not a number. -/
theorem isNaN_of_same (h : a.same b) : a.isNaN = false := by
  cases a <;> cases b <;> simp only [same, Bool.false_eq_true] at h
  · rfl
  · simp only [Binary64.same, Bool.and_eq_true, Bool.not_eq_true'] at h
    exact h.1.1

end Number

namespace Var

variable {v w u : Var}

/-- A variable is the same as itself. -/
theorem same_self (v : Var) : v.same v := by
  cases h : v.index <;> simp [same, h]

/-- Sameness of variables is symmetric. -/
theorem same_symm (h : v.same w) : w.same v := by
  cases hv : v.index <;> cases hw : w.index <;> simp_all [same]

/-- Sameness of variables is transitive. -/
theorem same_trans (h : v.same w) (h' : w.same u) : v.same u := by
  cases hv : v.index <;> cases hw : w.index <;> cases hu : u.index <;> simp_all [same]

/-- Variables with slots are the same exactly when the slots are. -/
theorem same_iff_index {i : Nat} (h : v.index = some i) : v.same w ↔ w.index = some i := by
  cases hw : w.index with
  | none => simp [same, h, hw]
  | some j =>
    simp only [same, h, hw, beq_iff_eq, Option.some.injEq]
    exact eq_comm

end Var

namespace Term

variable {a b c : Term}

/-- Nodes are the same node in the other order as well. -/
theorem sameNode_symm (h : a.sameNode b) : b.sameNode a := by
  cases a <;> cases b <;> simp only [sameNode, Bool.false_eq_true] at h ⊢
  · exact beq_of_eq (eq_of_beq h).symm
  · rwa [Number.same_comm]
  · exact Var.same_symm h
  · simp only [Bool.and_eq_true, beq_iff_eq] at h ⊢
    exact ⟨h.1.symm, h.2.symm⟩

/-- Sameness of nodes is transitive. -/
theorem sameNode_trans (h : a.sameNode b) (h' : b.sameNode c) : a.sameNode c := by
  cases a <;> cases b <;> simp only [sameNode, Bool.false_eq_true] at h <;> cases c <;>
    simp only [sameNode, Bool.false_eq_true] at h' ⊢
  · rwa [eq_of_beq h]
  · exact Number.same_trans h h'
  · exact Var.same_trans h h'
  · simp only [Bool.and_eq_true, beq_iff_eq] at h h' ⊢
    exact ⟨h.1.trans h'.1, h.2.trans h'.2⟩

/-- Pairs agree together exactly when they agree in two parts. -/
theorem agreeAll_append (node : Term → Term → Bool) (ps qs : List (Term × Term)) :
    agreeAll node (ps ++ qs) = (agreeAll node ps && agreeAll node qs) := by
  fun_induction agreeAll node ps with
  | case1 => simp
  | case2 a b rest ih =>
    rw [List.cons_append, agreeAll, ← List.append_assoc, ih, Bool.and_assoc]

/-- Pairs agree together exactly when each of them is the same twice. -/
theorem agreeAll_iff (pairs : List (Term × Term)) :
    agreeAll sameNode pairs ↔ ∀ p ∈ pairs, p.1.same p.2 := by
  induction pairs with
  | nil => simp [agreeAll]
  | cons p pairs ih =>
    have hcons : p :: pairs = [p] ++ pairs := rfl
    rw [hcons, agreeAll_append, Bool.and_eq_true, ih]
    simp [same]

/-- Terms are the same when their nodes and their arguments are. -/
theorem same_iff : a.same b ↔ a.sameNode b ∧ ∀ p ∈ a.args.zip b.args, p.1.same p.2 := by
  rw [same, agreeAll, Bool.and_eq_true, List.append_nil, agreeAll_iff]

/-- Compound terms are the same when their functors are equal and their arguments are the same. -/
theorem same_compound {f g : String} {as bs : List Term} {m n : Nat} :
    (compound f as m).same (.compound g bs n) ↔
      f = g ∧ List.Forall₂ (fun a b => (a.same b : Prop)) as bs := by
  rw [same_iff, List.forall₂_iff_zip]
  simp only [sameNode, args, Bool.and_eq_true, beq_iff_eq]
  constructor
  · rintro ⟨⟨hfunctor, hlength⟩, hargs⟩
    exact ⟨hfunctor, hlength, fun {a b} hab => hargs (a, b) hab⟩
  · rintro ⟨hfunctor, hlength, hargs⟩
    exact ⟨⟨hfunctor, hlength⟩, fun p hp => hargs hp⟩

/-- A node without arguments decides. -/
theorem same_iff_sameNode (h : a.args = []) : a.same b ↔ a.sameNode b := by
  rw [same_iff, h]
  simp

/-- What is the same as a compound term is one with the same functor. -/
theorem same_compound_left {f : String} {as : List Term} {m : Nat} :
    (compound f as m).same b ↔
      ∃ bs n, b = .compound f bs n ∧ List.Forall₂ (fun a b => (a.same b : Prop)) as bs := by
  cases b with
  | compound g bs n =>
    rw [same_compound]
    constructor
    · rintro ⟨rfl, hargs⟩
      exact ⟨bs, n, rfl, hargs⟩
    · rintro ⟨_, _, heq, hargs⟩
      cases heq
      exact ⟨rfl, hargs⟩
  | atom | number | var =>
    rw [same_iff]
    simp [sameNode]

/-- Terms that are variables are the same when the variables are. -/
theorem same_var {v w : Var} : (var v).same (.var w) ↔ v.same w := same_iff_sameNode rfl

/-- What a glance tells equal is one node without arguments. -/
theorem sameNode_of_sameConstant (h : a.sameConstant b) : a.sameNode b ∧ a.args = [] := by
  cases a <;> cases b <;> simp only [sameConstant, Bool.false_eq_true] at h
  · exact ⟨h, rfl⟩
  · simp only [Bool.and_eq_true, beq_iff_eq] at h
    obtain ⟨i, hi⟩ := Option.isSome_iff_exists.1 h.1
    exact ⟨(Var.same_iff_index hi).2 (h.2 ▸ hi), rfl⟩

/-- Nodes that are the same have as many arguments. -/
theorem length_args_of_sameNode (h : a.sameNode b) : a.args.length = b.args.length := by
  cases a <;> cases b <;> simp only [sameNode, Bool.false_eq_true] at h
  case compound.compound =>
    rw [Bool.and_eq_true, beq_iff_eq, beq_iff_eq] at h
    exact h.2
  all_goals rfl

/-- What a glance tells equal is the same. -/
theorem same_of_sameConstant (h : a.sameConstant b) : a.same b := by
  obtain ⟨hnode, hargs⟩ := sameNode_of_sameConstant h
  exact (same_iff_sameNode hargs).2 hnode

/-- Sameness of terms is symmetric. -/
theorem same_symm (h : a.same b) : b.same a := by
  induction a generalizing b with
  | atom | number | var =>
    have hnode := sameNode_symm ((same_iff_sameNode rfl).1 h)
    rw [same_iff]
    exact ⟨hnode, by simp [args]⟩
  | compound f as m ih =>
    obtain ⟨bs, n, rfl, hargs⟩ := same_compound_left.1 h
    refine same_compound.2 ⟨rfl, ?_⟩
    clear h
    induction hargs with
    | nil => exact .nil
    | cons hab _ ihargs =>
      refine .cons (ih _ List.mem_cons_self hab) (ihargs fun t ht => ih t ?_)
      exact List.mem_cons_of_mem _ ht

/-- It does not matter which of two terms is compared with the other. -/
theorem same_comm : a.same b ↔ b.same a := ⟨same_symm, same_symm⟩

/-- Sameness of terms is transitive. -/
theorem same_trans (h : a.same b) (h' : b.same c) : a.same c := by
  induction a generalizing b c with
  | atom | number | var =>
    rw [same_iff] at h h' ⊢
    exact ⟨sameNode_trans h.1 h'.1, by simp [args]⟩
  | compound f as m ih =>
    obtain ⟨bs, n, rfl, hargs⟩ := same_compound_left.1 h
    obtain ⟨cs, k, rfl, hargs'⟩ := same_compound_left.1 h'
    refine same_compound.2 ⟨rfl, ?_⟩
    clear h h'
    induction hargs generalizing cs with
    | nil =>
      cases hargs'
      exact .nil
    | cons hab _ ihargs =>
      cases hargs' with
      | cons hbc hrest =>
        refine .cons (ih _ List.mem_cons_self hab hbc) (ihargs (fun t ht => ih t ?_) _ hrest)
        exact List.mem_cons_of_mem _ ht

/-- Terms that are the same have the same extent. -/
theorem extent_eq_of_same (h : a.same b) : a.extent = b.extent := by
  induction a generalizing b with
  | atom | number | var =>
    have hnode := (same_iff_sameNode rfl).1 h
    cases b <;> simp [sameNode, extent] at hnode ⊢
  | compound f as m ih =>
    obtain ⟨bs, n, rfl, hargs⟩ := same_compound_left.1 h
    simp only [extent]
    clear h
    congr 1
    induction hargs with
    | nil => rfl
    | cons hab _ ihargs =>
      have hrest := ihargs fun t ht => ih t (List.mem_cons_of_mem _ ht)
      simp only [extents, ih _ List.mem_cons_self hab, hrest]

/-- The term contains no number that is not a number. -/
def isNaNFree (t : Term) : Bool :=
  t.leaves.all fun
    | .number value => !value.isNaN
    | _ => true

/-- The term contains no number that is not a number, and its variables have slots and are
not anonymous. -/
def isPlain (t : Term) : Bool :=
  t.leaves.all fun
    | .number value => !value.isNaN
    | .var v => v.index.isSome && !v.isAnonymous
    | _ => true

/-- A compound term is free of such numbers when its arguments are. -/
@[simp] theorem isNaNFree_compound {f : String} {as : List Term} {m : Nat} :
    (compound f as m).isNaNFree ↔ ∀ t ∈ as, t.isNaNFree := by
  simp [isNaNFree]

/-- A compound term is plain when its arguments are. -/
@[simp] theorem isPlain_compound {f : String} {as : List Term} {m : Nat} :
    (compound f as m).isPlain ↔ ∀ t ∈ as, t.isPlain := by
  simp [isPlain]

/-- A plain term contains no number that is not a number. -/
theorem isNaNFree_of_isPlain (h : a.isPlain) : a.isNaNFree := by
  rw [isPlain, List.all_eq_true] at h
  rw [isNaNFree, List.all_eq_true]
  intro leaf hleaf
  have := h leaf hleaf
  cases leaf with
  | number => exact this
  | atom | var | compound => rfl

/-- The arguments of a plain term are plain. -/
theorem isPlain_of_mem_args (h : b.isPlain) (ha : a ∈ b.args) : a.isPlain := by
  cases b with
  | compound f as m => exact isPlain_compound.1 h a ha
  | atom | number | var => simp [args] at ha

/-- The arguments of a term without numbers that are not numbers have none either. -/
theorem isNaNFree_of_mem_args (h : b.isNaNFree) (ha : a ∈ b.args) : a.isNaNFree := by
  cases b with
  | compound f as m => exact isNaNFree_compound.1 h a ha
  | atom | number | var => simp [args] at ha

/-- A variable is plain when it has a slot and is not anonymous. -/
theorem isPlain_var {v : Var} :
    (var v).isPlain ↔ (∃ i, v.index = some i) ∧ v.isAnonymous = false := by
  simp [isPlain, Option.isSome_iff_exists]

/-- A term without a number that is not a number is the same as itself. -/
theorem same_self (h : a.isNaNFree) : a.same a := by
  induction a with
  | atom name => exact (same_iff_sameNode rfl).2 (beq_self_eq_true name)
  | number value =>
    refine (same_iff_sameNode rfl).2 (Number.same_self ?_)
    simpa [isNaNFree] using h
  | var v => exact same_var.2 v.same_self
  | compound f as m ih =>
    refine same_compound.2 ⟨rfl, List.forall₂_same.2 fun t ht => ih t ht ?_⟩
    exact isNaNFree_compound.1 h t ht

/-- A term that is the same as some term contains no number that is not a number. -/
theorem isNaNFree_of_same (h : a.same b) : a.isNaNFree := by
  have hself : a.same a := same_trans h (same_symm h)
  clear h
  induction a with
  | atom | var => rfl
  | number value =>
    simpa [isNaNFree] using Number.isNaN_of_same ((same_iff_sameNode rfl).1 hself)
  | compound f as m ih =>
    have hargs := List.forall₂_same.1 (same_compound.1 hself).2
    exact isNaNFree_compound.2 fun t ht => ih t ht (hargs t ht)

end Term

end ClauseResolution
