import ClauseResolution.Proofs.Term.Same
import ClauseResolution.Substitution.Reify

/-!
# Assignments

An assignment gives terms to slots. Applied to a term it puts them in the place of the
variables with these slots; other variables stay. Assignments of terms without numbers
that are not numbers respect equality of terms. Putting the values of a table in the
place of slots is applying an assignment.
-/

namespace ClauseResolution

/-- Terms for slots. -/
abbrev Assignment := Nat → Option Term

mutual

/-- The term with what is assigned in the place of slots. -/
def Term.assign (θ : Assignment) : Term → Term
  | .var v => (v.index.bind θ).getD (.var v)
  | .compound functor args _ => .apply functor (Term.assignAll θ args)
  | t => t

/-- The terms of a list with what is assigned in the place of slots. -/
def Term.assignAll (θ : Assignment) : List Term → List Term
  | [] => []
  | t :: ts => t.assign θ :: Term.assignAll θ ts

end

/-- First one assignment, then another one in what it gave and where it gave nothing. -/
def Assignment.andThen (θ θ' : Assignment) : Assignment := fun slot =>
  match θ slot with
  | some t => some (t.assign θ')
  | none => θ' slot

/-- No term that is assigned contains a number that is not a number. -/
def Assignment.NaNFree (θ : Assignment) : Prop := ∀ slot t, θ slot = some t → t.isNaNFree

namespace Term

variable {θ θ' : Assignment} {a b : Term}

/-- An assignment is applied to terms one by one. -/
theorem assignAll_eq_map (ts : List Term) : assignAll θ ts = ts.map (assign θ) := by
  induction ts with
  | nil => rfl
  | cons t ts ih => rw [assignAll, ih, List.map_cons]

/-- An assignment does not change an atom. -/
@[simp] theorem assign_atom (name : String) : (atom name).assign θ = .atom name := rfl

/-- An assignment does not change a number. -/
@[simp] theorem assign_number (value : Number) : (number value).assign θ = .number value := rfl

/-- An assignment is applied to the arguments of a compound term. -/
@[simp] theorem assign_compound (f : String) (as : List Term) (m : Nat) :
    (compound f as m).assign θ = .compound f (as.map (assign θ)) 0 := by
  rw [assign, assignAll_eq_map, apply]

/-- A variable is replaced by what its slot is assigned, if it is assigned anything. -/
theorem assign_var_of_index {v : Var} {slot : Nat} (h : v.index = some slot) :
    (var v).assign θ = (θ slot).getD (.var v) := by
  rw [assign, h, Option.bind_some]

/-- Two assignments one after the other are one assignment. -/
theorem assign_andThen (t : Term) : t.assign (θ.andThen θ') = (t.assign θ).assign θ' := by
  induction t with
  | atom | number => rfl
  | var v =>
    cases hv : v.index with
    | none => simp [assign, hv]
    | some slot =>
      rw [assign_var_of_index hv, assign_var_of_index hv, Assignment.andThen]
      cases θ slot with
      | none => rw [Option.getD_none, assign_var_of_index hv]
      | some t => rfl
  | compound f as m ih =>
    rw [assign_compound, assign_compound, assign_compound, List.map_map]
    congr 1
    exact List.map_congr_left ih

/-- Only the slots of a term matter. -/
theorem assign_congr (h : ∀ slot ∈ a.slots, θ slot = θ' slot) : a.assign θ = a.assign θ' := by
  induction a with
  | atom | number => rfl
  | var v =>
    cases hv : v.index with
    | none => simp [assign, hv]
    | some slot => rw [assign_var_of_index hv, assign_var_of_index hv, h slot (by simp [hv])]
  | compound f as m ih =>
    rw [assign_compound, assign_compound]
    congr 1
    refine List.map_congr_left fun t ht => ih t ht fun slot hslot => ?_
    exact h slot (mem_slots_compound.2 ⟨t, ht, hslot⟩)

/-- No number that is not a number comes in when none is assigned to the slots of a term. -/
theorem isNaNFree_assign (hθ : ∀ slot ∈ a.slots, ∀ t, θ slot = some t → t.isNaNFree)
    (h : a.isNaNFree) : (a.assign θ).isNaNFree := by
  induction a with
  | atom | number => exact h
  | var v =>
    rw [assign]
    cases hvalue : v.index.bind θ with
    | none => exact h
    | some t =>
      obtain ⟨slot, hslot, ht⟩ := Option.bind_eq_some_iff.1 hvalue
      exact hθ slot (mem_slots_var.2 hslot) t ht
  | compound f as m ih =>
    rw [isNaNFree_compound] at h
    rw [assign_compound, isNaNFree_compound]
    intro t ht
    obtain ⟨u, hu, rfl⟩ := List.mem_map.1 ht
    exact ih u hu (fun slot hslot => hθ slot (mem_slots_compound.2 ⟨u, hu, hslot⟩)) (h u hu)

/-- A term without numbers that are not numbers stays the same as itself. -/
theorem assign_same_self (hθ : θ.NaNFree) (h : a.isNaNFree) : (a.assign θ).same (a.assign θ) :=
  same_self (isNaNFree_assign (fun slot _ => hθ slot) h)

/-- Terms that are the same stay so under an assignment. -/
theorem assign_same (hθ : θ.NaNFree) (h : a.same b) : (a.assign θ).same (b.assign θ) := by
  induction a generalizing b with
  | atom | number =>
    have hnode := (same_iff_sameNode rfl).1 h
    cases b <;> simp only [sameNode, Bool.false_eq_true] at hnode
    exact h
  | var v =>
    have hnode := (same_iff_sameNode rfl).1 h
    cases b <;> simp only [sameNode, Bool.false_eq_true] at hnode
    next w =>
    cases hv : v.index with
    | none =>
      have hw : w.index = none := by
        cases hw : w.index with
        | none => rfl
        | some j => simp [Var.same, hv, hw] at hnode
      simpa [assign, hv, hw] using h
    | some slot =>
      have hw := (Var.same_iff_index hv).1 hnode
      rw [assign_var_of_index hv, assign_var_of_index hw]
      cases ht : θ slot with
      | none => exact h
      | some t => exact same_self (hθ slot t ht)
  | compound f as m ih =>
    obtain ⟨bs, n, rfl, hargs⟩ := same_compound_left.1 h
    rw [assign_compound, assign_compound, same_compound]
    refine ⟨rfl, ?_⟩
    clear h
    induction hargs with
    | nil => exact .nil
    | cons hab _ ihargs =>
      refine .cons (ih _ List.mem_cons_self hab) (ihargs fun t ht => ih t ?_)
      exact List.mem_cons_of_mem _ ht

/-- A number that is not a number comes in wherever one is assigned to a slot of the term. -/
theorem isNaNFree_of_assign (h : (a.assign θ).isNaNFree) {slot : Nat} (hslot : slot ∈ a.slots)
    {t : Term} (ht : θ slot = some t) : t.isNaNFree := by
  induction a with
  | atom | number => simp at hslot
  | var v =>
    rw [mem_slots_var] at hslot
    rwa [assign_var_of_index hslot, ht] at h
  | compound f as m ih =>
    obtain ⟨u, hu, hslot⟩ := mem_slots_compound.1 hslot
    rw [assign_compound, isNaNFree_compound] at h
    exact ih u hu (h _ (List.mem_map_of_mem hu)) hslot

/-- Assignments that make the variables of a term the same make the term the same. -/
theorem assign_same_assign (ha : a.isNaNFree)
    (h : ∀ slot ∈ a.slots, ∀ v : Var, v.index = some slot →
      ((var v).assign θ).same ((var v).assign θ')) : (a.assign θ).same (a.assign θ') := by
  induction a with
  | atom | number => exact same_self ha
  | var v =>
    cases hv : v.index with
    | none =>
      have hfree : ∀ θ : Assignment, (var v).assign θ = .var v := fun θ => by simp [assign, hv]
      rw [hfree, hfree]
      exact same_self rfl
    | some slot => exact h slot (mem_slots_var.2 hv) v hv
  | compound f as m ih =>
    rw [isNaNFree_compound] at ha
    rw [assign_compound, assign_compound, same_compound, List.forall₂_map_left_iff,
      List.forall₂_map_right_iff]
    refine ⟨rfl, List.forall₂_same.2 fun t ht => ih t ht (ha t ht) fun slot hslot => ?_⟩
    exact h slot (mem_slots_compound.2 ⟨t, ht, hslot⟩)

/-- Variables with one slot become terms that are the same. -/
theorem assign_var_same (hθ : θ.NaNFree) {v w : Var} {slot : Nat} (hv : v.index = some slot)
    (hw : w.index = some slot) : ((var v).assign θ).same ((var w).assign θ) :=
  assign_same hθ (same_var.2 ((Var.same_iff_index hv).2 hw))

/-- What becomes of a variable is part of what becomes of a term with its slot. -/
theorem extent_assign_var_le {v : Var} {slot : Nat} (hv : v.index = some slot)
    (h : slot ∈ a.slots) : ((var v).assign θ).extent ≤ (a.assign θ).extent := by
  induction a with
  | atom | number => simp at h
  | var w =>
    rw [mem_slots_var] at h
    rw [assign_var_of_index hv, assign_var_of_index h]
    cases θ slot with
    | none => simp [extent]
    | some t => exact Nat.le_refl _
  | compound f as m ih =>
    obtain ⟨t, ht, hslot⟩ := mem_slots_compound.1 h
    have hle := ih t ht hslot
    have hlt := extent_lt_extents_of_mem (List.mem_map_of_mem (f := assign θ) ht)
    rw [assign_compound, extent]
    omega

/-- What becomes of a variable is a proper part of what becomes of a compound term with its
slot. -/
theorem extent_assign_var_lt {v : Var} {slot : Nat} (hv : v.index = some slot)
    (h : slot ∈ a.slots) (ha : a.slot? = none) :
    ((var v).assign θ).extent < (a.assign θ).extent := by
  cases a with
  | atom | number => simp at h
  | var w =>
    rw [mem_slots_var] at h
    simp [slot?, h] at ha
  | compound f as m =>
    obtain ⟨t, ht, hslot⟩ := mem_slots_compound.1 h
    have hle := extent_assign_var_le (θ := θ) hv hslot
    have hlt := extent_lt_extents_of_mem (List.mem_map_of_mem (f := assign θ) ht)
    rw [assign_compound, extent]
    omega

/-- A fold without a state takes each argument for itself. -/
theorem Visitor.visitAll_eq_map {ρ : Type} (v : Visitor Unit ρ) (ts : List Term) :
    v.visitAll ts () = (ts.map fun t => (v.visit t ()).1, ()) := by
  induction ts with
  | nil => rfl
  | cons t ts ih => simp [visitAll, ih]

/-- Putting the values of a table in the place of slots is applying an assignment. -/
theorem substitute_eq_assign (table : List (Nat × Term)) (t : Term) :
    t.substitute table = t.assign (List.lookup · table) := by
  rw [substitute, fold_eq_visit]
  induction t with
  | atom | number => rfl
  | var v => rfl
  | compound f as m ih =>
    rw [assign_compound, Visitor.visit_eq]
    simp only [Visitor.visitAll_eq_map, args, apply]
    exact congrArg (compound f · 0) (List.map_congr_left ih)

end Term

/-- What becomes of the arguments is what becomes of the arguments of the term. -/
theorem Occurrence.map_assign_args (θ : Assignment) (o : Occurrence) :
    o.args.map (fun arg => arg.term.assign θ) = o.term.args.map (Term.assign θ) := by
  rw [← map_term_args, List.map_map]
  rfl

end ClauseResolution
