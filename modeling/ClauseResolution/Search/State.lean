import ClauseResolution.Clause.Renaming
import ClauseResolution.Search.Config
import ClauseResolution.Search.Goal
import ClauseResolution.Unification.Basic

/-!
# The state of a search

A search holds the goals that remain and the choice points to return to. A choice
point remembers the context and the size of the store at its creation. The height of
the stack of choice points serves as the target of cuts: cutting to a height drops
every choice point above it.
-/

namespace ClauseResolution

/-- A goal that remains to be done. -/
inductive Frame
  /-- Run a goal. A cut in it returns to the height `barrier`; `depth` clauses enclose it. -/
  | goal (goal : Occurrence) (barrier depth : Nat)
  /-- Run a call as a goal. -/
  | call (call : Call) (barrier depth : Nat)
  /-- Drop the choice points above a height. -/
  | cutTo (height : Nat)

/-- What a choice point leaves to be tried. -/
inductive Alternative
  /-- Further clauses for a call. -/
  | clauses (call : Call) (untried : List Clause) (depth : Nat) (next : List Frame)
  /-- Another goal. -/
  | goal (goal : Occurrence) (barrier depth : Nat) (next : List Frame)

/-- A point to return to. -/
structure ChoicePoint where
  /-- The context to go back to. -/
  context : Context
  /-- The size of the store when the point was created. -/
  mark : Nat
  /-- What is left to be tried. -/
  alternative : Alternative

/-- The state of a search. -/
structure Search where
  /-- All bindings made and not reclaimed. -/
  store : Store
  /-- The current substitution. -/
  context : Context
  /-- The goals that remain, the next one first. -/
  continuation : List Frame
  /-- The choice points, the newest last. -/
  choices : Array ChoicePoint
  /-- The number of predicate calls so far. -/
  inferences : Nat

/-- The state after a step. -/
inductive Move
  /-- Go on with the goals that remain. -/
  | proceed (state : Search)
  /-- Go back to the newest choice point. -/
  | backtrack (state : Search)
  /-- All goals are done. -/
  | solution (state : Search)
  /-- The search ends with an error. -/
  | error (error : SearchError)
  /-- The steps granted did not suffice. -/
  | unfinished

/-- The state after a look for a matching clause. -/
inductive Entry
  /-- A clause was entered. -/
  | entered (state : Search)
  /-- No clause matches. -/
  | missed (state : Search)
  /-- The steps granted did not suffice. -/
  | unfinished

/-- Drops the bindings from a mark on, if the configuration wants them reclaimed. -/
def Config.reclaim (config : Config) (mark : Nat) (σ : Store) : Store :=
  if config.reclaimBindings then σ.truncate mark else σ

/-- The first clause whose head unifies with a call. -/
inductive ClauseMatch
  /-- The substitution that unifies, the renamed body of the clause, whether the clause
  is a fact, and the clauses after it. -/
  | found (store : Store) (context : Context) (body : Occurrence) (isFact : Bool)
    (untried : List Clause)
  /-- No clause is left. -/
  | missing (store : Store)
  /-- The steps granted did not suffice. -/
  | unfinished

/-- Unifies a call with the head of a clause: functors and numbers of arguments agree, and
the arguments unify. -/
def Call.unifyHead (config : Config) (steps : Nat) (σ : Store) (c : Context) (call : Call)
    (head : Occurrence) : Unified :=
  match head.term with
  | .compound functor args _ =>
    if call.functor = functor ∧ call.args.length = args.length then
      unifyAll .byOccurrence config.occursCheck steps σ c (call.args.zip head.args)
    else .clash σ
  | _ => .clash σ

/-- Looks for the first clause whose head unifies with a call. -/
def firstMatch (config : Config) (steps : Nat) (c : Context) (mark : Nat) (call : Call) :
    Store → List Clause → ClauseMatch
  | σ, [] => .missing σ
  | σ, clause :: clauses =>
    let fresh := clause.rename c
    match call.unifyHead config steps σ fresh.context fresh.head with
    | .unified σ c => .found σ c fresh.body clause.isFact clauses
    | .clash σ => firstMatch config steps c mark call (config.reclaim mark σ) clauses
    | .unfinished => .unfinished

namespace Search

/-- The state in which a normalized goal is about to run. -/
def start (query : Normalized) : Search where
  store := .empty
  context := (Context.empty.allocate query.vars.length).1
  continuation := [.goal (.whole 0 query.term) 0 0]
  choices := #[]
  inferences := 0

/-- Enters the first clause that matches a call and leaves a choice point for the
clauses after it. A cut in the body returns to the present height. -/
def enter (config : Config) (steps : Nat) (call : Call) (clauses : List Clause) (depth : Nat)
    (next : List Frame) : Search → Entry
  | ⟨σ, c, continuation, choices, inferences⟩ =>
    let mark := σ.size
    let barrier := choices.size
    match firstMatch config steps c mark call σ clauses with
    | .missing σ => .missed ⟨σ, c, continuation, choices, inferences⟩
    | .unfinished => .unfinished
    | .found σ extended body isFact untried =>
      let choices :=
        if untried.isEmpty then choices
        else choices.push ⟨c, mark, .clauses call untried depth next⟩
      let continuation := if isFact then next else .goal body barrier (depth + 1) :: next
      .entered ⟨σ, extended, continuation, choices, inferences⟩

/-- Drops the choice points above a height. -/
def cut (height : Nat) (state : Search) : Search :=
  { state with choices := state.choices.shrink height }

/-- Adds a choice point at which another goal runs in the place of the present one. -/
def offer (goal : Occurrence) (barrier depth : Nat) (state : Search) : Search :=
  let point := ⟨state.context, state.store.size, .goal goal barrier depth state.continuation⟩
  { state with choices := state.choices.push point }

/-- Sets the goals that remain. -/
def continueWith (continuation : List Frame) (state : Search) : Search :=
  { state with continuation := continuation }

end Search

end ClauseResolution
