import ClauseResolution.Proofs.Term.Names

/-!
# Definite terms and stable terms

A variable can have no slot although it has a name, and a slot although it has the name of the
anonymous one. In a definite term neither happens: the name of a variable tells whether it has a
slot. In a stable term only the latter is excluded, together with numbers that are not numbers:
such a term cannot be taken for something else the second time it is looked at.
-/

namespace ClauseResolution

/-- The variable has a slot, unless it is the anonymous one, which has none. -/
def Var.isDefinite (v : Var) : Bool := v.index.isSome != v.isAnonymous

/-- The variable has no slot or is not the anonymous one. -/
def Var.isStable (v : Var) : Bool := v.index.isNone || !v.isAnonymous

/-- The variable with another slot in the place of its own. The name of a variable with a slot is
for display only, and is left out. -/
def Var.relabel (ρ : Nat → Nat) (v : Var) : Var :=
  match v.index with
  | none => v
  | some slot => ⟨"", some (ρ slot)⟩

namespace Var

variable {v : Var} {slot : Nat}

/-- A definite variable is anonymous exactly when it has no slot. -/
theorem isAnonymous_of_isDefinite (h : v.isDefinite) : v.isAnonymous = v.index.isNone := by
  cases hindex : v.index <;> simpa [isDefinite, hindex] using h

/-- A variable with a slot gets the new slot and loses its name. -/
theorem relabel_of_index (ρ : Nat → Nat) (h : v.index = some slot) :
    v.relabel ρ = ⟨"", some (ρ slot)⟩ := by
  rw [relabel, h]

/-- A variable without a slot stays as it is. -/
theorem relabel_of_index_eq_none (ρ : Nat → Nat) (h : v.index = none) : v.relabel ρ = v := by
  rw [relabel, h]

end Var

namespace Term

variable {t u : Term}

/-- All variables of the term are definite. -/
def isDefinite (t : Term) : Bool :=
  t.leaves.all fun
    | .var v => v.isDefinite
    | _ => true

/-- All variables of the term are stable, and it contains no number that is not a number. -/
def isStable (t : Term) : Bool :=
  t.leaves.all fun
    | .number value => !value.isNaN
    | .var v => v.isStable
    | _ => true

/-- A term that is a variable is definite when the variable is. -/
theorem isDefinite_var {v : Var} : (var v).isDefinite = v.isDefinite := by simp [isDefinite]

/-- A term that is a variable is stable when the variable is. -/
theorem isStable_var {v : Var} : (var v).isStable = v.isStable := by simp [isStable]

/-- The arguments of a definite term are definite. -/
theorem isDefinite_of_mem_args (h : u.isDefinite) (ht : t ∈ u.args) : t.isDefinite := by
  cases u with
  | compound functor args varCount =>
    simp only [isDefinite, leaves_compound, List.all_flatMap, List.all_eq_true] at h ⊢
    exact h t ht
  | atom | number | var => simp [args] at ht

/-- The arguments of a stable term are stable. -/
theorem isStable_of_mem_args (h : u.isStable) (ht : t ∈ u.args) : t.isStable := by
  cases u with
  | compound functor args varCount =>
    simp only [isStable, leaves_compound, List.all_flatMap, List.all_eq_true] at h ⊢
    exact h t ht
  | atom | number | var => simp [args] at ht

/-- The term with other slots in the place of its own. -/
def relabel (ρ : Nat → Nat) (t : Term) : Term := t.mapVars (Var.relabel ρ)

/-- Relabelling does not change an atom. -/
@[simp] theorem relabel_atom (ρ : Nat → Nat) (name : String) :
    (atom name).relabel ρ = .atom name := rfl

/-- Relabelling does not change a number. -/
@[simp] theorem relabel_number (ρ : Nat → Nat) (value : Number) :
    (number value).relabel ρ = .number value := rfl

/-- Relabelling a term that is a variable relabels the variable. -/
@[simp] theorem relabel_var (ρ : Nat → Nat) (v : Var) :
    (var v).relabel ρ = .var (v.relabel ρ) := rfl

/-- Relabelling a compound term relabels its arguments. -/
@[simp] theorem relabel_compound (ρ : Nat → Nat) (functor : String) (args : List Term)
    (varCount : Nat) : (compound functor args varCount).relabel ρ =
      .compound functor (args.map (relabel ρ)) varCount :=
  mapVars_compound functor args varCount

end Term

end ClauseResolution
