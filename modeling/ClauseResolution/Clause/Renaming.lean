import ClauseResolution.Clause.Basic
import ClauseResolution.Substitution.Store

/-!
# Fresh instances of clauses

A clause is used with variables of its own: as many slots as it has variables are
allocated, and each variable moves to its new slot. The head is one text and the body
another, and no other clause has the same. Terms at one place of two instances differ in
their variables, unless they have none, and what has none is not built anew.
-/

namespace ClauseResolution.Clause

/-- The number of the text that is the head. No goal is written in it. -/
def headText (clause : Clause) : Nat := 2 * clause.text + 1

/-- The number of the text that is the body. -/
def bodyText (clause : Clause) : Nat := 2 * clause.text + 2

/-- A fresh instance of a clause. -/
structure Instance where
  /-- The context in which the slots of the instance are allocated. -/
  context : Context
  /-- The renamed head. -/
  head : Occurrence
  /-- The renamed body. -/
  body : Occurrence

/-- The clause with terms in the place of its slots. -/
def fill (clause : Clause) (c : Context) (frame : Array Term) : Instance :=
  ⟨c, .whole clause.headText (clause.head.toTerm.instantiate frame),
    .whole clause.bodyText (clause.body.instantiate frame)⟩

/-- The instance of a clause with fresh variables. -/
def rename (clause : Clause) (c : Context) : Instance :=
  let (c, base) := c.allocate clause.varCount
  clause.fill c (clause.frame base)

/-- The instance of a clause with fresh variables, the slots of which are counted in a machine
word. -/
def renameWord (clause : Clause) (c : Context) : Instance :=
  let (c, base) := c.allocateWord clause.varCount
  clause.fill c (clause.frameBelow slotBound base)

end ClauseResolution.Clause
