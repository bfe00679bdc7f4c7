import ClauseResolution.Clause.Normalize
import ClauseResolution.Term.Text

/-!
# Clauses

A clause is a head and a body over one numbering of variables. A head is an atom or a
compound term, an atom being kept as a compound term without arguments. A body is
anything but a number. The body of a fact is `true`. A clause stands in a text, the
number of which tells it from clauses that were built apart; copies of a clause stand in
one text.
-/

namespace ClauseResolution

/-- Why a term is no clause. -/
inductive ClauseError
  /-- The head is a variable or a number. -/
  | invalidHead (head : Term)
  /-- The body is a number. -/
  | invalidBody (body : Term)

/-- The wording of an error. -/
def ClauseError.message : ClauseError → String
  | .invalidHead head => "clause head must be an atom or compound term, found " ++ head.text
  | .invalidBody body => "clause body must be callable, found " ++ body.text

/-- A fact or rule with numbered variables. -/
structure Clause where
  /-- The head. -/
  head : Compound
  /-- The body. -/
  body : Term
  /-- The names of the variables, in slot order. -/
  varNames : List String
  /-- The number of the text in which the clause is written. -/
  text : Nat

/-- The parts of a callable term; an atom is taken as a functor without arguments. -/
def Term.callable? : Term → Option Compound
  | .atom name => some ⟨name, [], 0⟩
  | .compound functor args varCount => some ⟨functor, args, varCount⟩
  | _ => none

namespace Clause

/-- The functor between head and body. -/
def neck : String := ":-"

/-- The body of a fact. -/
def truth : Term := .atom "true"

/-- The clause of a head and a body, written in a text. A head that is no head is reported
first. -/
def rule (text : Nat) (head body : Term) : Except ClauseError Clause :=
  if head.isCallable then
    match body with
    | .number value => .error (.invalidBody (.number value))
    | body =>
      let (head', n) := Numbering.empty.number head
      let (body', n) := n.number body
      match head'.callable? with
      | some parts => .ok ⟨parts, body', n.vars.map Var.name, text⟩
      | none => .error (.invalidHead head)
  else .error (.invalidHead head)

/-- The clause a term denotes, written in a text: a rule under the neck, or else the head of
a fact. -/
def ofTerm (text : Nat) (t : Term) : Except ClauseError Clause :=
  match t with
  | .compound functor [head, body] _ =>
    if functor = neck then rule text head body else rule text t truth
  | t => rule text t truth

/-- The predicate indicator of the head. -/
def key (c : Clause) : String := c.head.indicator

/-- The number of distinct variables. -/
def varCount (c : Clause) : Nat := c.varNames.length

/-- The body is the atom `true`. -/
def isFact (c : Clause) : Bool := c.body.isAtomNamed "true"

/-- The body of a fact. -/
theorem isFact_iff {c : Clause} : c.isFact = true ↔ c.body = truth := by
  rw [isFact, truth]
  cases c.body with
  | atom name => simp [Term.isAtomNamed]
  | number | var | compound => simp [Term.isAtomNamed]

/-- The clause as a term: a rule under the neck, or the head of a fact. -/
def toTerm (c : Clause) : Term :=
  if c.isFact then c.head.toTerm else .apply neck [c.head.toTerm, c.body]

/-- The variables that stand for the slots of the clause from `base` on. -/
def frame (c : Clause) (base : Nat) : Array Term :=
  (c.varNames.zipIdx base).toArray.map fun (name, i) => .var ⟨name, some i⟩

/-- The variables that stand for the slots of the clause from `base` on, where a slot is less
than a bound and the slots after the last one start again at zero. -/
def frameBelow (c : Clause) (bound base : Nat) : Array Term :=
  (c.varNames.zipIdx base).toArray.map fun (name, i) => .var ⟨name, some (i % bound)⟩

end Clause

end ClauseResolution
