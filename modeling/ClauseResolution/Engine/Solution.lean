import ClauseResolution.Clause.Normalize
import ClauseResolution.Substitution.Reify
import ClauseResolution.Term.Equality
import ClauseResolution.Term.Json

/-!
# Solutions and answers

A solution is the substitution at which all goals of a query are done, together with
the variables of the query. An answer lists the values of these variables under
distinct keys: a variable goes by its name, and when the name is taken already by its
name and its slot.
-/

namespace ClauseResolution

/-- A substitution that solves a query. -/
structure Solution where
  /-- The bindings made so far. -/
  store : Store
  /-- The substitution. -/
  context : Context
  /-- The variables of the query, in slot order. -/
  vars : List Var

/-- The values of the variables of a query, in the order in which their keys came up. -/
structure Answer where
  /-- Keys and values. -/
  bindings : List (String × Term)

namespace Answer

/-- No values. -/
def empty : Answer := ⟨[]⟩

/-- The value under a key. -/
def get? (answer : Answer) (key : String) : Option Term := answer.bindings.lookup key

/-- Writes a value into the entry of a key, or into a new entry at the end. -/
def insertInto (key : String) (value : Term) : List (String × Term) → List (String × Term)
  | [] => [(key, value)]
  | (other, old) :: bindings =>
    if other = key then (key, value) :: bindings
    else (other, old) :: insertInto key value bindings

/-- Sets the value under a key. A key that is present keeps its place. -/
def insert (answer : Answer) (key : String) (value : Term) : Answer :=
  ⟨insertInto key value answer.bindings⟩

/-- The key of a variable, given the answer before it. -/
def keyFor (answer : Answer) (name : String) (slot : Nat) : String :=
  if (answer.get? name).isSome then name ++ "#" ++ toString slot else name

/-- The same values under the same keys, in any order. -/
def same (a b : Answer) : Bool :=
  a.bindings.length == b.bindings.length &&
    a.bindings.all fun (key, value) => (b.get? key).any value.same

/-- An answer as a JSON value. -/
def toJson (answer : Answer) : Json :=
  .ofMembers
    [("bindings", .ofMembers (answer.bindings.map fun (key, value) => (key, value.toJson)))]

/-- Reads members of an object as values under their keys, a repeated key keeping its
place and taking the later value. -/
def insertMembers? (answer : Answer) : List (Option String × Json) → Option Answer
  | [] => some answer
  | (key, value) :: members => do
    insertMembers? (answer.insert (← key) (← Term.ofJson? value)) members

/-- The answer a JSON value denotes. -/
def ofJson? (value : Json) : Option Answer := do
  match ← value.record? false ["bindings"] with
  | [some (.object members)] => insertMembers? .empty members
  | _ => none

/-- The compact JSON text of a list of answers. -/
def listText (answers : List Answer) : String := (Json.array (answers.map toJson)).text

/-- The answers a JSON text denotes. -/
def ofListText? (text : String) : Option (List Answer) := do
  match ← Json.read? text with
  | .array items => items.mapM ofJson?
  | _ => none

/-- The same answers in the same order. -/
def sameList (as bs : List Answer) : Bool :=
  as.length == bs.length && (as.zip bs).all fun (a, b) => a.same b

/-- The JSON text of a list of answers denotes the same answers. -/
def readsBack (answers : List Answer) : Bool :=
  (ofListText? (listText answers)).any (sameList answers)

end Answer

namespace Solution

/-- A term with the values of the solution in the place of variables, unless the
substitution is cyclic below it. -/
def reify (s : Solution) (t : Term) : Option Term := s.store.reify s.context t

/-- The value of the first query variable with a name. -/
def get? (s : Solution) (name : String) : Option Term :=
  (s.vars.find? fun v => v.name == name).bind fun v => s.reify (.var v)

/-- Adds the values of variables, the first of which has the given slot. -/
def answerFrom (s : Solution) (answer : Answer) (slot : Nat) : List Var → Option Answer
  | [] => some answer
  | v :: vars => do
    let value ← s.reify (.var v)
    s.answerFrom (answer.insert (answer.keyFor v.name slot) value) (slot + 1) vars

/-- The values of all query variables, unless one of them is cyclic. -/
def answer? (s : Solution) : Option Answer := s.answerFrom .empty 0 s.vars

end Solution

end ClauseResolution
