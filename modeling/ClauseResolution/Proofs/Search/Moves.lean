import ClauseResolution.Search.Step

/-!
# What a step can do

A step of a search sets the goals that remain, cuts, leaves a choice point, unifies, or enters a
clause. `Does` says once what each of these makes of the state; what steps keep is read off it.
-/

namespace ClauseResolution.Search

variable {config : Config} {clausesOf : String → List Clause} {steps : Nat}

/-- The moves that a step can be, each with the state that it leads to. -/
inductive Does (config : Config) (clausesOf : String → List Clause) (steps : Nat)
    (state : Search) : Move → Prop
  /-- No goal remains. -/
  | solution : Does config clausesOf steps state (.solution state)
  /-- Other goals remain. -/
  | continued (frames : List Frame) :
      Does config clausesOf steps state (.proceed (state.continueWith frames))
  /-- The goal has failed. -/
  | failed (frames : List Frame) :
      Does config clausesOf steps state (.backtrack (state.continueWith frames))
  /-- Choice points are dropped. -/
  | cut (height : Nat) (frames : List Frame) :
      Does config clausesOf steps state (.proceed ((state.continueWith frames).cut height))
  /-- A choice point is left. -/
  | offered (goal : Occurrence) (barrier depth : Nat) (next frames : List Frame) :
      Does config clausesOf steps state
        (.proceed (((state.continueWith next).offer goal barrier depth).continueWith frames))
  /-- Two terms were to be equal, and are made so. -/
  | unified {σ : Store} {c : Context} (left right : Occurrence) (frames : List Frame)
      (hunify : unify .byOccurrence config.occursCheck steps state.store state.context left right =
        .unified σ c) :
      Does config clausesOf steps state
        (.proceed ⟨σ, c, frames, state.choices, state.inferences⟩)
  /-- Two terms were to be equal, and cannot be made so. -/
  | clashed {σ : Store} (left right : Occurrence) (frames : List Frame)
      (hunify : unify .byOccurrence config.occursCheck steps state.store state.context left right =
        .clash σ) :
      Does config clausesOf steps state
        (.backtrack ⟨σ, state.context, frames, state.choices, state.inferences⟩)
  /-- Two terms were to differ, and can be made equal. -/
  | refuted {σ : Store} {c : Context} (left right : Occurrence) (frames : List Frame)
      (hunify : unify .byOccurrence config.occursCheck steps state.store state.context left right =
        .unified σ c) :
      Does config clausesOf steps state
        (.backtrack ⟨σ, state.context, frames, state.choices, state.inferences⟩)
  /-- Two terms were to differ, and cannot be made equal. -/
  | differed {σ : Store} (left right : Occurrence) (frames : List Frame)
      (hunify : unify .byOccurrence config.occursCheck steps state.store state.context left right =
        .clash σ) :
      Does config clausesOf steps state
        (.proceed ⟨σ, state.context, frames, state.choices, state.inferences⟩)
  /-- A clause is entered. -/
  | entered {call : Call} {depth : Nat} {next : List Frame} {t : Search}
      (henter : enter config steps call (clausesOf call.indicator) depth next
        ⟨state.store, state.context, next, state.choices, state.inferences + 1⟩ = .entered t) :
      Does config clausesOf steps state (.proceed t)
  /-- No clause matches. -/
  | missed {call : Call} {depth : Nat} {next : List Frame} {t : Search}
      (henter : enter config steps call (clausesOf call.indicator) depth next
        ⟨state.store, state.context, next, state.choices, state.inferences + 1⟩ = .missed t) :
      Does config clausesOf steps state (.backtrack t)
  /-- The search ends with an error. -/
  | error (cause : SearchError) : Does config clausesOf steps state (.error cause)
  /-- The steps granted did not suffice. -/
  | unfinished : Does config clausesOf steps state .unfinished

/-- Resolving a call is one of the things a search does. -/
theorem does_resolve (call : Call) (depth : Nat) (next : List Frame) (state : Search) :
    state.Does config clausesOf steps
      (resolve config clausesOf steps call depth (state.continueWith next)) := by
  rw [resolve]
  split
  · exact .error _
  dsimp only
  split
  · exact .error _
  cases henter : enter config steps call (clausesOf call.indicator) depth next
      ⟨state.store, state.context, next, state.choices, state.inferences + 1⟩ with
  | entered t =>
    rw [continueWith, henter]
    exact .entered henter
  | missed t =>
    rw [continueWith, henter]
    exact .missed henter
  | unfinished =>
    rw [continueWith, henter]
    exact .unfinished

/-- Doing what a goal asks for is one of the things a search does. -/
theorem does_perform (goal : Goal) (barrier depth : Nat) (next : List Frame) (state : Search) :
    state.Does config clausesOf steps
      (perform config clausesOf steps goal barrier depth (state.continueWith next)) := by
  cases goal with
  | truth => exact .continued next
  | failure => exact .failed next
  | cut => exact .cut barrier next
  | both left right => exact .continued _
  | either left right => exact .offered right barrier depth next _
  | ifThen condition consequent alternative =>
    cases alternative with
    | none => exact .continued _
    | some goal => exact .offered goal barrier depth next _
  | negation goal => exact .offered _ barrier depth next _
  | call target extra =>
    rw [perform]
    split
    · exact .error _
    · exact .continued _
  | unify left right =>
    rw [perform, continueWith]
    dsimp only
    split
    · next hunify => exact .unified left right next hunify
    · next hunify => exact .clashed left right next hunify
    · exact .unfinished
  | differ left right =>
    rw [perform, continueWith]
    dsimp only
    split
    · next hunify => exact .refuted left right next hunify
    · next hunify => exact .differed left right next hunify
    · exact .unfinished
  | predicate call => exact does_resolve call depth next state

/-- Doing what a call asks for is one of the things a search does. -/
theorem does_performCall (call : Call) (barrier depth : Nat) (next : List Frame)
    (state : Search) : state.Does config clausesOf steps
      (performCall config clausesOf steps call barrier depth (state.continueWith next)) := by
  rw [performCall]
  cases Goal.ofCall call with
  | error cause => exact .error cause
  | ok goal => exact does_perform goal barrier depth next state

/-- Every step is one of these moves. -/
theorem does_advance (config : Config) (clausesOf : String → List Clause) (steps : Nat)
    (state : Search) :
    state.Does config clausesOf steps (state.advance config clausesOf steps) := by
  obtain ⟨σ, c, continuation, choices, inferences⟩ := state
  match continuation with
  | [] => exact .solution
  | .cutTo height :: next => exact .cut height next
  | .call call barrier depth :: next =>
    exact does_performCall call barrier depth next ⟨σ, c, _, choices, inferences⟩
  | .goal goal barrier depth :: next =>
    rw [advance]
    cases Call.ofOccurrence (σ.deref c goal) with
    | error cause => exact .error cause
    | ok call => exact does_performCall call barrier depth next ⟨σ, c, _, choices, inferences⟩

end ClauseResolution.Search
