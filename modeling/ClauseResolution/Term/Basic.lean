import ClauseResolution.Number.Basic

/-!
# Terms

Terms are atoms, numbers, variables and compound terms. An indexed variable is
identified by its slot and a variable without index by its name. A compound term
stores how many distinct variables lie below it; the count is data, set by
normalization and zero in a term that was built directly.
-/

namespace ClauseResolution

/-- A logical variable. -/
structure Var where
  /-- The name, for display and for variables without a slot. -/
  name : String
  /-- The slot, once one is assigned. -/
  index : Option Nat
  deriving DecidableEq

namespace Var

/-- The name of the anonymous variable. -/
def anonymousName : String := "_"

/-- The anonymous variable. -/
def anonymous : Var := ⟨anonymousName, none⟩

/-- A variable is anonymous by its name, with or without a slot. -/
def isAnonymous (v : Var) : Bool := v.name == anonymousName

/-- Indexed variables are the same when their slots agree, variables without index
when their names do. -/
def same (v w : Var) : Bool :=
  match v.index, w.index with
  | some i, some j => i == j
  | none, none => v.name == w.name
  | _, _ => false

end Var

/-- A logic term. -/
inductive Term
  /-- A symbolic constant. -/
  | atom (name : String)
  /-- A numeric constant. -/
  | number (value : Number)
  /-- A logical variable. -/
  | var (v : Var)
  /-- A functor applied to arguments, with the stored count of variables below it. -/
  | compound (functor : String) (args : List Term) (varCount : Nat)
  deriving Inhabited

/-- The parts of a compound term. -/
structure Compound where
  /-- The functor. -/
  functor : String
  /-- The arguments, in order. -/
  args : List Term
  /-- The stored count of distinct variables below. -/
  varCount : Nat

/-- The predicate indicator `name/arity`. -/
def indicator (name : String) (arity : Nat) : String := name ++ "/" ++ toString arity

/-- The indicator `name/*` of all arities of a name. -/
def variadicIndicator (name : String) : String := name ++ "/*"

namespace Compound

/-- The number of arguments. -/
def arity (c : Compound) : Nat := c.args.length

/-- The predicate indicator. -/
def indicator (c : Compound) : String := ClauseResolution.indicator c.functor c.arity

/-- Functor and arity agree. -/
def sameIndicator (c d : Compound) : Bool := c.functor == d.functor && c.arity == d.arity

/-- The term with these parts. -/
def toTerm (c : Compound) : Term := .compound c.functor c.args c.varCount

end Compound

namespace Term

/-- A functor applied to arguments, with no variables counted. Without arguments this
is still not an atom. -/
def apply (functor : String) (args : List Term) : Term := .compound functor args 0

/-- The arguments of a compound term; no other term has any. -/
def args : Term → List Term
  | .compound _ args _ => args
  | _ => []

/-- The parts of a compound term. -/
def toCompound? : Term → Option Compound
  | .compound functor args varCount => some ⟨functor, args, varCount⟩
  | _ => none

/-- Atoms and compound terms can be called as goals. -/
def isCallable : Term → Bool
  | .atom _ | .compound .. => true
  | _ => false

/-- The atom of a given name. -/
def isAtomNamed (name : String) : Term → Bool
  | .atom other => other == name
  | _ => false

/-- The predicate indicator of a callable term. -/
def indicator? : Term → Option String
  | .atom name => some (indicator name 0)
  | .compound functor args _ => some (indicator functor args.length)
  | _ => none

/-- The functor of list cells. -/
def cellFunctor : String := "."

/-- The name of the atom that ends a proper list. -/
def nilName : String := "[]"

/-- The empty list. -/
def nil : Term := .atom nilName

/-- A list cell. -/
def cell (head tail : Term) : Term := apply cellFunctor [head, tail]

/-- The list of `items` that ends in `tail`. -/
def listWithTail (items : List Term) (tail : Term) : Term := items.foldr cell tail

/-- Goals nested to the right under the comma; no goal at all is `true`. -/
def conjunction : List Term → Term
  | [] => .atom "true"
  | [goal] => goal
  | goal :: goals => apply "," [goal, conjunction goals]

/-- The parts of a list cell. -/
def cell? : Term → Option (Term × Term)
  | .compound functor [head, tail] _ => if functor = cellFunctor then some (head, tail) else none
  | _ => none

/-- The elements of a proper list, after those already `seen`, last first. -/
def listItemsAfter (seen : List Term) : Term → Option (List Term)
  | .atom name => if name = nilName then some seen.reverse else none
  | .compound functor [head, tail] _ =>
    if functor = cellFunctor then listItemsAfter (head :: seen) tail else none
  | _ => none

/-- The elements of a proper list. -/
def listItems? (t : Term) : Option (List Term) := listItemsAfter [] t

/-- Both are the same atom, or indexed variables of one slot, so that a glance tells them
equal under every substitution. No glance at the terms is enough for numbers and compound
terms. -/
def sameConstant : Term → Term → Bool
  | .atom a, .atom b => a == b
  | .var v, .var w => v.index.isSome && v.index == w.index
  | _, _ => false

end Term

mutual

/-- The extent of a term: one for each node and one for each argument position. -/
def Term.extent : Term → Nat
  | .compound _ args _ => 1 + Term.extents args
  | _ => 1

/-- The extent of a list of arguments. -/
def Term.extents : List Term → Nat
  | [] => 0
  | t :: ts => 1 + t.extent + Term.extents ts

end

namespace Term

/-- Every term has an extent. -/
theorem extent_pos (t : Term) : 0 < t.extent := by
  cases t <;> simp only [extent] <;> omega

/-- A node adds one to the extent of its arguments. -/
theorem extent_eq (t : Term) : t.extent = 1 + extents t.args := by
  cases t <;> simp [extent, args, extents]

/-- The extents of two lists are added. -/
theorem extents_append (ts us : List Term) : extents (ts ++ us) = extents ts + extents us := by
  induction ts with
  | nil => simp [extents]
  | cons t ts ih => simp only [List.cons_append, extents, ih]; omega

/-- A term of a list has a smaller extent than the list together. -/
theorem extent_lt_extents_of_mem {t : Term} {ts : List Term} (h : t ∈ ts) :
    t.extent < extents ts := by
  induction ts with
  | nil => simp at h
  | cons u ts ih =>
    simp only [extents]
    rcases List.mem_cons.1 h with rfl | h
    · omega
    · have := ih h
      omega

end Term

end ClauseResolution
