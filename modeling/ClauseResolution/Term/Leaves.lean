import ClauseResolution.Term.Basic

/-!
# Leaves and slots of terms

The leaves of a term are its constants and variables, in reading order. The slots of a
term are those of its variables. Terms are nested in lists of arguments, so statements
about all terms go by an induction in which every argument is smaller.
-/

namespace ClauseResolution

mutual

/-- The constants and variables of a term, from left to right. -/
def Term.leaves : Term → List Term
  | .compound _ args _ => Term.leavesAll args
  | t => [t]

/-- The constants and variables of a list of arguments. -/
def Term.leavesAll : List Term → List Term
  | [] => []
  | t :: ts => t.leaves ++ Term.leavesAll ts

end

namespace Term

/-- A property that passes from arguments to compound terms holds of every term. -/
@[induction_eliminator]
theorem induction {motive : Term → Prop} (atom : ∀ name, motive (.atom name))
    (number : ∀ value, motive (.number value)) (var : ∀ v, motive (.var v))
    (compound : ∀ functor args varCount, (∀ t ∈ args, motive t) →
      motive (.compound functor args varCount)) (t : Term) : motive t := by
  induction hn : t.extent using Nat.strongRecOn generalizing t with
  | ind n ih =>
    cases t with
    | atom name => exact atom name
    | number value => exact number value
    | var v => exact var v
    | compound functor args varCount =>
      refine compound functor args varCount fun t ht => ih t.extent ?_ t rfl
      have hlt := extent_lt_extents_of_mem ht
      rw [← hn, extent]
      omega

/-- The leaves of terms are those of each of them, in turn. -/
theorem leavesAll_eq_flatMap (ts : List Term) : leavesAll ts = ts.flatMap leaves := by
  induction ts with
  | nil => rfl
  | cons t ts ih => rw [leavesAll, ih, List.flatMap_cons]

/-- An atom is its only leaf. -/
@[simp] theorem leaves_atom (name : String) : (Term.atom name).leaves = [.atom name] := rfl

/-- A number is its only leaf. -/
@[simp] theorem leaves_number (value : Number) : (Term.number value).leaves = [.number value] := rfl

/-- A variable is its only leaf. -/
@[simp] theorem leaves_var (v : Var) : (Term.var v).leaves = [.var v] := rfl

/-- The leaves of a compound term are those of its arguments, in turn. -/
@[simp] theorem leaves_compound (functor : String) (args : List Term) (varCount : Nat) :
    (Term.compound functor args varCount).leaves = args.flatMap leaves :=
  leavesAll_eq_flatMap args

/-- The slot of a variable that has one. -/
def slot? : Term → Option Nat
  | .var v => v.index
  | _ => none

/-- The slots of the variables of a term, from left to right. -/
def slots (t : Term) : List Nat := t.leaves.filterMap slot?

/-- An atom has no slots. -/
@[simp] theorem slots_atom (name : String) : (Term.atom name).slots = [] := rfl

/-- A number has no slots. -/
@[simp] theorem slots_number (value : Number) : (Term.number value).slots = [] := rfl

/-- A variable has its own slot, if it has one. -/
theorem slots_var (v : Var) : (Term.var v).slots = v.index.toList := by
  cases h : v.index <;> simp [slots, slot?, h]

/-- The slot of a variable is the only one of the term that it is. -/
@[simp] theorem mem_slots_var {v : Var} {slot : Nat} :
    slot ∈ (Term.var v).slots ↔ v.index = some slot := by
  rw [slots_var, Option.mem_toList]

/-- A slot stands in a compound term when it stands in an argument. -/
@[simp] theorem mem_slots_compound {functor : String} {args : List Term} {varCount slot : Nat} :
    slot ∈ (Term.compound functor args varCount).slots ↔ ∃ t ∈ args, slot ∈ t.slots := by
  simp only [slots, leaves_compound, List.mem_filterMap, List.mem_flatMap]
  constructor
  · rintro ⟨leaf, ⟨t, ht, hleaf⟩, hslot⟩
    exact ⟨t, ht, leaf, hleaf, hslot⟩
  · rintro ⟨t, ht, leaf, hleaf, hslot⟩
    exact ⟨leaf, ⟨t, ht, hleaf⟩, hslot⟩

/-- The slots of an argument are slots of the term. -/
theorem mem_slots_of_mem_args {t u : Term} {slot : Nat} (ht : t ∈ u.args) (h : slot ∈ t.slots) :
    slot ∈ u.slots := by
  cases u with
  | compound functor args varCount => exact mem_slots_compound.2 ⟨t, ht, h⟩
  | atom | number | var => simp [args] at ht

end Term

end ClauseResolution
