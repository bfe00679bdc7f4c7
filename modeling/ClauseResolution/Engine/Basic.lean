import ClauseResolution.Database.Index
import ClauseResolution.Search.Config

/-!
# Engines

An engine holds a configuration, an index of clause providers, and the environment it
shares with whoever watches its searches: the providers themselves, whose clauses may
change while a search runs, the request to interrupt a search, and the number of texts
written so far, for every clause that is built is written in a new one. Provider 0 is the
theory of the engine and provider 1 its dynamic database; both serve every predicate.
-/

namespace ClauseResolution

/-- What a running search shares with its listener. -/
structure Environment where
  /-- The clause providers, by number. -/
  providers : Array Provider
  /-- A search is asked to stop. -/
  interrupted : Bool
  /-- The number of texts in which clauses were written so far. -/
  texts : Nat

/-- A configuration with sources of clauses. -/
structure Engine where
  /-- Bounds and switches. -/
  config : Config
  /-- Which providers serve which predicates. -/
  index : ClauseIndex
  /-- The providers and the request to interrupt. -/
  environment : Environment

/-- The number of the theory of an engine. -/
def theoryNumber : Nat := 0

/-- The number of the dynamic database of an engine. -/
def databaseNumber : Nat := 1

namespace Environment

/-- An empty theory and an empty dynamic database. -/
def initial : Environment := ⟨#[.theory .empty, .dynamic .empty], false, 0⟩

/-- Adds a provider and returns its number. -/
def addProvider (env : Environment) (provider : Provider) : Nat × Environment :=
  (env.providers.size, { env with providers := env.providers.push provider })

/-- The candidates of one provider; an unknown provider has none. -/
def matching (env : Environment) (number : Nat) (key : String) : List Clause :=
  (env.providers[number]?.map (·.matching key)).getD []

/-- The provider of a number as a theory; any other provider counts as an empty one. -/
def theory (env : Environment) (number : Nat) : Theory :=
  match env.providers[number]? with
  | some (.theory clauses) => clauses
  | _ => .empty

/-- The provider of a number as dynamic clauses; any other provider counts as empty. -/
def dynamic (env : Environment) (number : Nat) : DynamicClauses :=
  match env.providers[number]? with
  | some (.dynamic clauses) => clauses
  | _ => .empty

/-- Puts a provider in the place of another. -/
def setProvider (env : Environment) (number : Nat) (provider : Provider) : Environment :=
  { env with providers := env.providers.setIfInBounds number provider }

/-- Takes up a new text and returns its number. -/
def newText (env : Environment) : Nat × Environment :=
  (env.texts, { env with texts := env.texts + 1 })

/-- Adds a clause to a theory. -/
def addClause (env : Environment) (number : Nat) (clause : Clause) : Environment :=
  env.setProvider number (.theory ((env.theory number).add clause))

/-- Adds the clause a term denotes to a theory. -/
def addTerm (env : Environment) (number : Nat) (t : Term) : Except ClauseError Environment :=
  let (text, written) := env.newText
  ((env.theory number).addTerm text t).map fun clauses =>
    written.setProvider number (.theory clauses)

/-- Removes the clauses of a predicate from a theory and returns how many there were. -/
def abolish (env : Environment) (number : Nat) (key : String) : Nat × Environment :=
  let (count, clauses) := (env.theory number).abolish key
  (count, env.setProvider number (.theory clauses))

/-- Removes every clause from a theory. -/
def clear (env : Environment) (number : Nat) : Environment :=
  env.setProvider number (.theory (env.theory number).clear)

/-- Asserts the clause a term denotes and returns its slot. -/
def assertTerm (env : Environment) (number : Nat) (t : Term) :
    Except ClauseError (Nat × Environment) :=
  let (text, written) := env.newText
  ((env.dynamic number).assertTerm text t).map fun (slot, clauses) =>
    (slot, written.setProvider number (.dynamic clauses))

/-- Retracts the clause in a slot and returns it. -/
def retractAt (env : Environment) (number slot : Nat) : Option Clause × Environment :=
  let (clause, clauses) := (env.dynamic number).retractAt slot
  (clause, env.setProvider number (.dynamic clauses))

/-- Drops the slots of dynamic clauses from a number on. -/
def retractFrom (env : Environment) (number slot : Nat) : Environment :=
  env.setProvider number (.dynamic ((env.dynamic number).retractFrom slot))

/-- Drops the slots of dynamic clauses. -/
def retractAll (env : Environment) (number : Nat) : Environment :=
  env.setProvider number (.dynamic (env.dynamic number).retractAll)

/-- Asks a running search to stop. -/
def interrupt (env : Environment) : Environment := { env with interrupted := true }

end Environment

namespace Engine

/-- An engine without clauses. -/
def ofConfig (config : Config) : Engine where
  config := config
  index := (ClauseIndex.empty.registerGlobal theoryNumber).registerGlobal databaseNumber
  environment := .initial

/-- Registers a provider for the predicate or name of an indicator. -/
def register (engine : Engine) (key : String) (provider : Nat) : Engine :=
  { engine with index := engine.index.register key provider }

/-- Registers a provider for every predicate. -/
def registerGlobal (engine : Engine) (provider : Nat) : Engine :=
  { engine with index := engine.index.registerGlobal provider }

/-- All clauses tried for a predicate, in order. -/
def clauses (engine : Engine) (key : String) : List Clause :=
  engine.index.matching engine.environment.providers key

end Engine

end ClauseResolution
