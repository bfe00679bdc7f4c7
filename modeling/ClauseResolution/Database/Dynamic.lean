import ClauseResolution.Clause.Basic

/-!
# Dynamic clauses

Clauses asserted at run time get numbered slots. A retracted clause leaves its slot
empty, so that the numbers of the other clauses stay valid; slots at the end can be
dropped as a whole.
-/

namespace ClauseResolution

/-- Asserted clauses by slot, with empty slots for those that were retracted. -/
structure DynamicClauses where
  /-- The slots. -/
  slots : Array (Option Clause)

namespace DynamicClauses

/-- No slots. -/
def empty : DynamicClauses := ⟨#[]⟩

/-- Adds a clause in a new slot and returns the number of the slot. -/
def push (d : DynamicClauses) (clause : Clause) : Nat × DynamicClauses :=
  (d.slots.size, ⟨d.slots.push (some clause)⟩)

/-- Asserts the clause a term denotes, written in a text, and returns its slot. -/
def assertTerm (d : DynamicClauses) (text : Nat) (t : Term) :
    Except ClauseError (Nat × DynamicClauses) :=
  (Clause.ofTerm text t).map d.push

/-- The clause in a slot, unless it was retracted. -/
def get? (d : DynamicClauses) (slot : Nat) : Option Clause := d.slots[slot]?.join

/-- Empties a slot and returns the clause it held. -/
def retractAt (d : DynamicClauses) (slot : Nat) : Option Clause × DynamicClauses :=
  (d.get? slot, ⟨d.slots.setIfInBounds slot none⟩)

/-- Drops all slots from a number on. -/
def retractFrom (d : DynamicClauses) (slot : Nat) : DynamicClauses := ⟨d.slots.take slot⟩

/-- Drops all slots. -/
def retractAll (_ : DynamicClauses) : DynamicClauses := empty

/-- The clauses that are still there, in slot order. -/
def live (d : DynamicClauses) : List Clause := d.slots.toList.filterMap id

/-- The clauses of a predicate, in slot order. -/
def matching (d : DynamicClauses) (key : String) : List Clause :=
  d.live.filter fun clause => clause.key == key

/-- The number of slots, empty ones included. -/
def size (d : DynamicClauses) : Nat := d.slots.size

/-- The number of slots that hold a clause. -/
def liveCount (d : DynamicClauses) : Nat := d.slots.countP Option.isSome

end DynamicClauses

end ClauseResolution
