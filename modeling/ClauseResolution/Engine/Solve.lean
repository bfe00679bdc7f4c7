import ClauseResolution.Engine.Basic
import ClauseResolution.Engine.Solution
import ClauseResolution.Search.Step

/-!
# Solving queries

A search hands every solution to a listener, which may change the environment and
decides whether the search goes on. The request to interrupt is looked at before
every step. All steps are counted against a number granted in advance; running out of
it is no answer, and a search that ends does so in the same way when more is granted.
-/

namespace ClauseResolution

/-- What a listener wants after a solution. -/
inductive Signal
  /-- Look for more solutions. -/
  | continue
  /-- End the search. -/
  | abort
  deriving DecidableEq, Inhabited

/-- Receives a solution, with the environment and a value of its own. -/
abbrev Listener (σ : Type) := Solution → Environment → σ → Signal × Environment × σ

/-- The summary of a search that came to its end. -/
structure Outcome where
  /-- The number of solutions. -/
  solutions : Nat
  /-- The number of predicate calls. -/
  inferences : Nat
  /-- The listener ended the search. -/
  aborted : Bool
  deriving DecidableEq

/-- How a search ends. -/
inductive Ending
  /-- No alternative is left, or the listener ended the search. -/
  | finished (outcome : Outcome)
  /-- An error ended the search. -/
  | failed (error : SearchError)
  /-- The steps granted did not suffice. -/
  | unfinished

/-- The search came to its end with at least one solution. -/
def Ending.hasSolution : Ending → Bool
  | .finished outcome => decide (0 < outcome.solutions)
  | _ => false

/-- The end of a search, with what it leaves. -/
structure Report (σ : Type) where
  /-- How the search ended. -/
  ending : Ending
  /-- The environment afterwards. -/
  environment : Environment
  /-- The value of the listener afterwards. -/
  value : σ

/-- The compact JSON text of an outcome. -/
def Outcome.jsonText (outcome : Outcome) : String :=
  (Json.ofMembers [("solutions", .ofNat outcome.solutions),
    ("inferences", .ofNat outcome.inferences), ("aborted", .bool outcome.aborted)]).text

/-- A search under way. -/
structure Progress (σ : Type) where
  /-- The number of solutions so far. -/
  solutions : Nat
  /-- The state of the search. -/
  state : Search
  /-- The environment. -/
  environment : Environment
  /-- The value of the listener. -/
  value : σ

/-- What one turn of a search leads to. -/
inductive Turn (σ : Type)
  /-- The search goes on. -/
  | going (progress : Progress σ)
  /-- The search has ended. -/
  | ended (report : Report σ)

namespace Search

/-- The solution in a state, for a query with the given variables. -/
def solution (state : Search) (vars : List Var) : Solution :=
  ⟨state.store, state.context, vars⟩

/-- Goes back to the newest choice point, or ends the search when there is none. -/
def retry {σ : Type} (config : Config) (steps : Nat) : Progress σ → Turn σ
  | ⟨solutions, state, env, value⟩ =>
    match state.backtrack config steps with
    | .resumed state => .going ⟨solutions, state, env, value⟩
    | .exhausted state => .ended ⟨.finished ⟨solutions, state.inferences, false⟩, env, value⟩
    | .unfinished => .ended ⟨.unfinished, env, value⟩

/-- One turn: a step, followed by the listener at a solution and by backtracking where
the search cannot go on. -/
def turn {σ : Type} (config : Config) (index : ClauseIndex) (vars : List Var)
    (listener : Listener σ) (steps : Nat) : Progress σ → Turn σ
  | ⟨solutions, state, env, value⟩ =>
    if env.interrupted then .ended ⟨.failed .interrupted, env, value⟩
    else
      match state.advance config (index.matching env.providers) steps with
      | .proceed state => .going ⟨solutions, state, env, value⟩
      | .backtrack state => retry config steps ⟨solutions, state, env, value⟩
      | .solution state =>
        match listener (state.solution vars) env value with
        | (.abort, env, value) =>
          .ended ⟨.finished ⟨solutions + 1, state.inferences, true⟩, env, value⟩
        | (.continue, env, value) => retry config steps ⟨solutions + 1, state, env, value⟩
      | .error error => .ended ⟨.failed error, env, value⟩
      | .unfinished => .ended ⟨.unfinished, env, value⟩

/-- Takes turns until the search ends. -/
def run {σ : Type} (config : Config) (index : ClauseIndex) (vars : List Var)
    (listener : Listener σ) : Nat → Progress σ → Report σ
  | 0, progress => ⟨.unfinished, progress.environment, progress.value⟩
  | steps + 1, progress =>
    match turn config index vars listener steps progress with
    | .going progress => run config index vars listener steps progress
    | .ended report => report

end Search

namespace Engine

/-- Enumerates the solutions of a goal within a number of steps. An earlier request to
interrupt is forgotten when the search starts. -/
def solve {σ : Type} (engine : Engine) (steps : Nat) (goal : Term) (listener : Listener σ)
    (value : σ) : Report σ :=
  let query := goal.normalize
  Search.run engine.config engine.index query.vars listener steps
    ⟨0, Search.start query, { engine.environment with interrupted := false }, value⟩

/-- The end of a query for all answers. -/
inductive Answers
  /-- All answers, in order. -/
  | all (answers : List Answer)
  /-- An error ended the search. -/
  | failed (error : SearchError)
  /-- The steps granted did not suffice, or an answer is cyclic. -/
  | unfinished

/-- Collects answers, last first, up to the first solution that is cyclic. -/
def collect : Listener (Option (List Answer)) := fun solution env answers =>
  match answers, solution.answer? with
  | some answers, some answer => (.continue, env, some (answer :: answers))
  | _, _ => (.abort, env, none)

/-- The answers to a goal, and the environment afterwards. -/
def query (engine : Engine) (steps : Nat) (goal : Term) : Answers × Environment :=
  let report := engine.solve steps goal collect (some [])
  let answers := match report.ending, report.value with
    | .finished _, some answers => .all answers.reverse
    | .failed error, _ => .failed error
    | _, _ => .unfinished
  (answers, report.environment)

/-- Ends the search at the first solution. -/
def first : Listener Unit := fun _ env _ => (.abort, env, ())

/-- Searches for one solution of a goal; the outcome counts one solution if there is any. -/
def ask (engine : Engine) (steps : Nat) (goal : Term) : Ending × Environment :=
  let report := engine.solve steps goal first ()
  (report.ending, report.environment)

end Engine

end ClauseResolution
