import ClauseResolution.Clause.Basic
import ClauseResolution.Database.Groups

/-!
# Theories

A theory keeps clauses by predicate. The clauses of a predicate stand in the order in
which they were added, and the predicates in the order of their first clause.
-/

namespace ClauseResolution

/-- Clauses grouped by predicate indicator. -/
structure Theory where
  /-- The clauses under the indicator of their predicate. -/
  groups : Groups Clause

namespace Theory

/-- A theory without clauses. -/
def empty : Theory := ⟨.empty⟩

/-- Adds a clause behind the other clauses of its predicate. -/
def add (theory : Theory) (clause : Clause) : Theory := ⟨theory.groups.add clause.key clause⟩

/-- Adds the clause a term denotes, written in a text. -/
def addTerm (theory : Theory) (text : Nat) (t : Term) : Except ClauseError Theory :=
  (Clause.ofTerm text t).map theory.add

/-- The clauses of a predicate. -/
def matching (theory : Theory) (key : String) : List Clause := theory.groups.get key

/-- The predicates with at least one clause. -/
def predicates (theory : Theory) : List String := theory.groups.keys

/-- The number of clauses. -/
def size (theory : Theory) : Nat := theory.groups.size

/-- Removes the clauses of a predicate and returns how many there were. -/
def abolish (theory : Theory) (key : String) : Nat × Theory :=
  ((theory.groups.get key).length, ⟨theory.groups.remove key⟩)

/-- Removes every clause. -/
def clear (_ : Theory) : Theory := empty

end Theory

end ClauseResolution
