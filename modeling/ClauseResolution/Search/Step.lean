import ClauseResolution.Search.State

/-!
# Steps of a search

A step takes the next frame of the continuation. Control constructs rearrange the
continuation and the choice points, unification extends the substitution, and a call
of a predicate enters its first matching clause. Backtracking takes up the newest
choice point that still has something to try.
-/

namespace ClauseResolution.Search

/-- Calls a predicate. The bounds of the configuration are tested first, the depth
before the number of calls. -/
def resolve (config : Config) (clausesOf : String → List Clause) (steps : Nat) (call : Call)
    (depth : Nat) (state : Search) : Move :=
  if config.maxDepth ≤ depth then .error (.depthExceeded config.maxDepth)
  else
    let inferences := state.inferences + 1
    match config.maxInferences.filter (· < inferences) with
    | some limit => .error (.inferenceLimit limit)
    | none =>
      let next := state.continuation
      match enter config steps call (clausesOf call.indicator) depth next
        { state with inferences := inferences } with
      | .entered state => .proceed state
      | .missed state => .backtrack state
      | .unfinished => .unfinished

/-- Does what a goal asks for. The continuation of the state is what comes after the
goal; a cut in the goal returns to the height `barrier`. -/
def perform (config : Config) (clausesOf : String → List Clause) (steps : Nat) (goal : Goal)
    (barrier depth : Nat) (state : Search) : Move :=
  match goal with
  | .truth => .proceed state
  | .failure => .backtrack state
  | .cut => .proceed (state.cut barrier)
  | .both left right =>
    let next := state.continuation
    .proceed (state.continueWith (.goal left barrier depth :: .goal right barrier depth :: next))
  | .either left right =>
    let next := state.continuation
    .proceed ((state.offer right barrier depth).continueWith (.goal left barrier depth :: next))
  | .ifThen condition consequent alternative =>
    let height := state.choices.size
    let next := state.continuation
    let state := match alternative with
      | some goal => state.offer goal barrier depth
      | none => state
    let inner := state.choices.size
    .proceed (state.continueWith
      (.goal condition inner depth :: .cutTo height :: .goal consequent barrier depth :: next))
  | .negation goal =>
    let height := state.choices.size
    let state := state.offer (.whole 0 Clause.truth) barrier depth
    let inner := state.choices.size
    .proceed (state.continueWith
      [.goal goal inner depth, .cutTo height, .call ⟨"fail", []⟩ barrier depth])
  | .call target extra =>
    match Call.ofOccurrence (state.store.deref state.context target) with
    | .error error => .error error
    | .ok call =>
      let height := state.choices.size
      let next := state.continuation
      .proceed (state.continueWith (.call (call.addArgs extra) height depth :: next))
  | .unify left right =>
    match state with
    | ⟨σ, c, next, choices, inferences⟩ =>
      match ClauseResolution.unify .byOccurrence config.occursCheck steps σ c left right with
      | .unified σ c => .proceed ⟨σ, c, next, choices, inferences⟩
      | .clash σ => .backtrack ⟨σ, c, next, choices, inferences⟩
      | .unfinished => .unfinished
  | .differ left right =>
    match state with
    | ⟨σ, c, next, choices, inferences⟩ =>
      match ClauseResolution.unify .byOccurrence config.occursCheck steps σ c left right with
      | .unified σ _ => .backtrack ⟨σ, c, next, choices, inferences⟩
      | .clash σ => .proceed ⟨σ, c, next, choices, inferences⟩
      | .unfinished => .unfinished
  | .predicate call => resolve config clausesOf steps call depth state

/-- Does what a call asks for. -/
def performCall (config : Config) (clausesOf : String → List Clause) (steps : Nat) (call : Call)
    (barrier depth : Nat) (state : Search) : Move :=
  match Goal.ofCall call with
  | .error error => .error error
  | .ok goal => perform config clausesOf steps goal barrier depth state

/-- Takes the next frame. -/
def advance (config : Config) (clausesOf : String → List Clause) (steps : Nat) : Search → Move
  | ⟨σ, c, [], choices, inferences⟩ => .solution ⟨σ, c, [], choices, inferences⟩
  | ⟨σ, c, .cutTo height :: next, choices, inferences⟩ =>
    .proceed (cut height ⟨σ, c, next, choices, inferences⟩)
  | ⟨σ, c, .call call barrier depth :: next, choices, inferences⟩ =>
    performCall config clausesOf steps call barrier depth ⟨σ, c, next, choices, inferences⟩
  | ⟨σ, c, .goal goal barrier depth :: next, choices, inferences⟩ =>
    match Call.ofOccurrence (σ.deref c goal) with
    | .error error => .error error
    | .ok call =>
      performCall config clausesOf steps call barrier depth ⟨σ, c, next, choices, inferences⟩

/-- What backtracking leads to. -/
inductive Resumption
  /-- A choice point was taken up. -/
  | resumed (state : Search)
  /-- No choice point is left. -/
  | exhausted (state : Search)
  /-- The steps granted did not suffice. -/
  | unfinished

/-- Looking for a clause in vain leaves the choice points as they are. -/
theorem choices_of_enter_eq_missed {config : Config} {steps depth : Nat} {call : Call}
    {clauses : List Clause} {next : List Frame} {s t : Search}
    (h : enter config steps call clauses depth next s = .missed t) : t.choices = s.choices := by
  unfold enter at h
  dsimp only at h
  split at h
  · rw [← Entry.missed.inj h]
  · simp at h
  · simp at h

/-- Takes up the newest choice point that has something to try. A choice point whose
clauses all fail to match is passed over. -/
def backtrack (config : Config) (steps : Nat) : Search → Resumption
  | ⟨σ, c, continuation, choices, inferences⟩ =>
    match _hlast : choices.back? with
    | none => .exhausted ⟨σ, c, continuation, choices, inferences⟩
    | some ⟨context, mark, .goal goal barrier depth next⟩ =>
      let σ := config.reclaim mark σ
      .resumed ⟨σ, context, .goal goal barrier depth :: next, choices.pop, inferences⟩
    | some ⟨context, mark, .clauses call untried depth next⟩ =>
      let σ := config.reclaim mark σ
      match _henter : enter config steps call untried depth next
        ⟨σ, context, continuation, choices.pop, inferences⟩ with
      | .entered state => .resumed state
      | .missed state => backtrack config steps state
      | .unfinished => .unfinished
termination_by state => state.choices.size
decreasing_by
  rw [choices_of_enter_eq_missed _henter, Array.size_pop]
  have hpos : 0 < choices.size := by
    rw [Array.back?_eq_getElem?] at _hlast
    have := (Array.getElem?_eq_some_iff.1 _hlast).1
    omega
  omega

/-- Going back in one step: to the newest choice point, or past it when its clauses all fail
to match. -/
theorem backtrack_eq (config : Config) (steps : Nat) (state : Search) :
    state.backtrack config steps =
      match state.choices.back? with
      | none => .exhausted state
      | some ⟨context, mark, .goal goal barrier depth next⟩ =>
        .resumed ⟨config.reclaim mark state.store, context, .goal goal barrier depth :: next,
          state.choices.pop, state.inferences⟩
      | some ⟨context, mark, .clauses call untried depth next⟩ =>
        match enter config steps call untried depth next ⟨config.reclaim mark state.store, context,
          state.continuation, state.choices.pop, state.inferences⟩ with
        | .entered state => .resumed state
        | .missed state => state.backtrack config steps
        | .unfinished => .unfinished := by
  obtain ⟨σ, c, continuation, choices, inferences⟩ := state
  rw [backtrack]
  dsimp only
  split
  · next hlast => rw [hlast]
  · next hlast => rw [hlast]
  · next hlast =>
    rw [hlast]
    dsimp only
    split <;> next henter => rw [henter]

end ClauseResolution.Search
