import ClauseResolution.Proofs.Engine.Completeness
import ClauseResolution.Proofs.Engine.Freshness
import ClauseResolution.Proofs.Engine.Termination

/-!
# Requests to interrupt

The request to interrupt is looked at before every step, and it is forgotten when a query
starts. So a request that stands when the listener lets the search go on ends it before
anything else is done, unless no alternative is left. Between the listener and the next look
at the request the search goes back, which ends whatever the clauses are, as every
substitution of a search is tractable. A listener that starts another query on the same engine
after it has asked to interrupt takes the request back.
-/

namespace ClauseResolution

open Relation (ReflTransGen)

/-- What a search does next keeps its substitutions tractable. -/
theorem Exploration.Next.tractable {config : Config} {e e' : Exploration}
    (hnext : Next config e e') (h : (tractability config).OfExploration e) :
    (tractability config).OfExploration e' := by
  cases hnext with
  | @proceed clausesOf steps _ _ hstep =>
    have hstage : (tractability config).OfStage (e.advance config clausesOf steps) :=
      BranchInvariant.ofStage_advance (fun _ _ _ => trivial) h
    rwa [hstep] at hstage
  | @back clausesOf steps steps' _ last _ hstep hback =>
    have hstage : (tractability config).OfStage (e.advance config clausesOf steps) :=
      BranchInvariant.ofStage_advance (fun _ _ _ => trivial) h
    have hlast : (tractability config).OfExploration last := by
      rcases hstep with hstep | hstep <;> rwa [hstep] at hstage
    exact BranchInvariant.of_backtrack hlast.branches hback

namespace Search

variable {α : Type} {config : Config} {index : ClauseIndex} {vars : List Var}
  {listener : Listener α}

/-- A search under way is the middle of every run to which enough is granted. -/
theorem exists_run_of_reached {p q : Progress α}
    (h : ReflTransGen (Follows config index vars listener) p q) :
    ∃ length least, ∀ steps ≥ least,
      run config index vars listener (steps + length) p =
        run config index vars listener steps q := by
  induction h with
  | refl => exact ⟨0, 0, fun _ _ => rfl⟩
  | @tail q r _ hfollows ih =>
    obtain ⟨length, least, hrun⟩ := ih
    obtain ⟨m, hturn⟩ := hfollows
    refine ⟨length + 1, max least m, fun steps hsteps => ?_⟩
    have hmore : turn config index vars listener steps q = .going r := by
      rw [← hturn]
      refine turn_mono ((le_max_right least m).trans hsteps) ?_
      rw [hturn]
      simp [Turn.ending?]
    rw [← Nat.add_assoc, Nat.add_right_comm,
      hrun (steps + 1) (Nat.le_succ_of_le ((le_max_left least m).trans hsteps)), run, hmore]

/-- In a search under way all contexts belong to the store, and all substitutions are
tractable. -/
theorem tractable_of_reached {p q : Progress α} (hsound : p.state.Sound)
    (h : (Exploration.tractability config).OfExploration p.state.view)
    (hreached : ReflTransGen (Follows config index vars listener) p q) :
    q.state.Sound ∧ (Exploration.tractability config).OfExploration q.state.view := by
  induction hreached with
  | refl => exact ⟨hsound, h⟩
  | tail _ hfollows ih =>
    obtain ⟨hsound, h⟩ := ih
    obtain ⟨_, hturn⟩ := hfollows
    obtain ⟨hsound', hnext⟩ := turn_going hsound hturn
    exact ⟨hsound', hnext.tractable h⟩

/-- Going back in a search with tractable substitutions ends. -/
theorem exists_backtrack {state : Search} (hsound : state.Sound)
    (h : (Exploration.tractability config).OfExploration state.view) :
    ∃ steps, state.backtrack config steps ≠ .unfinished := by
  obtain ⟨steps, hend⟩ :=
    Exploration.exists_backtrack_of_tractable h.branches state.inferences
  refine ⟨steps, fun hunfinished => hend ?_⟩
  have hview := (backtrack_view config steps hsound).2
  rw [hunfinished] at hview
  exact hview.symm

/-- As many solutions are kept as were counted. -/
theorem length_of_turn_recording {steps : Nat} {p q : Progress (List Solution × α)}
    (hsound : p.state.Sound) (h : p.value.1.length = p.solutions)
    (hturn : turn config index vars listener.recording steps p = .going q) :
    q.value.1.length = q.solutions := by
  have hretry : ∀ r : Progress (List Solution × α), r.value.1.length = r.solutions →
      retry config steps r = .going q → q.value.1.length = q.solutions := by
    rintro ⟨count, state, env, value⟩ hr hgoing
    rw [retry] at hgoing
    cases hback : state.backtrack config steps with
    | resumed state' =>
      simp only [hback] at hgoing
      cases hgoing
      exact hr
    | exhausted | unfinished => simp [hback] at hgoing
  revert hturn
  refine turn_cases hsound ?_ ?_ ?_ ?_ ?_ ?_
  · intro error hgoing
    cases hgoing
  · intro hgoing
    cases hgoing
  · rintro state _ _ ⟨rfl⟩
    exact h
  · intro state _ _ hgoing
    exact hretry { p with state } h hgoing
  · intro state env value _ _ _ hgoing
    cases hgoing
  · rintro state env value _ _ hreply hgoing
    refine hretry ⟨p.solutions + 1, state, env, value⟩ ?_ hgoing
    simp only [Listener.recording, Prod.mk.injEq] at hreply
    obtain ⟨_, _, rfl⟩ := hreply
    rw [List.length_append, h]
    rfl

/-- A search under way has kept as many solutions as it counted. -/
theorem length_of_reached_recording {p q : Progress (List Solution × α)} (hsound : p.state.Sound)
    (h : p.value.1.length = p.solutions)
    (hreached : ReflTransGen (Follows config index vars listener.recording) p q) :
    q.value.1.length = q.solutions := by
  suffices hboth : q.state.Sound ∧ q.value.1.length = q.solutions from hboth.2
  induction hreached with
  | refl => exact ⟨hsound, h⟩
  | tail _ hfollows ih =>
    obtain ⟨hsound, h⟩ := ih
    obtain ⟨_, hturn⟩ := hfollows
    exact ⟨(turn_going hsound hturn).1, length_of_turn_recording hsound h hturn⟩

end Search

/-- The search is about to hand a solution to the listener. -/
structure Progress.AtSolution {α : Type} (p : Progress α) : Prop where
  /-- No goal remains. -/
  done : p.state.continuation = []
  /-- The search was not asked to stop. -/
  polled : p.environment.interrupted = false

namespace Search

variable {α : Type} {config : Config} {index : ClauseIndex} {vars : List Var}
  {listener : Listener α} {p : Progress α} {env : Environment} {value : α} {steps : Nat}

/-- At a solution the listener is asked, and if it lets the search go on, the search goes
back. -/
theorem turn_of_atSolution (h : p.AtSolution)
    (hreply : listener (p.state.solution vars) p.environment p.value = (.continue, env, value)) :
    turn config index vars listener steps p =
      retry config steps ⟨p.solutions + 1, p.state, env, value⟩ := by
  obtain ⟨count, ⟨σ, c, continuation, choices, inferences⟩, env₀, value₀⟩ := p
  obtain ⟨hdone, hpolled⟩ := h
  dsimp only at hdone hpolled hreply
  subst hdone
  simp only [turn, hpolled, advance, hreply, Bool.false_eq_true, if_false]

/-- A request to interrupt that stands when the listener lets the search go on ends it at the
next alternative. -/
theorem run_of_resumed {state : Search} (h : p.AtSolution)
    (hreply : listener (p.state.solution vars) p.environment p.value = (.continue, env, value))
    (hset : env.interrupted = true)
    (hback : p.state.backtrack config (steps + 1) = .resumed state) :
    run config index vars listener (steps + 2) p = ⟨.failed .interrupted, env, value⟩ := by
  rw [run, turn_of_atSolution h hreply, retry, hback]
  dsimp only
  rw [run, turn, if_pos hset]

/-- Without an alternative the search ends at the solution. -/
theorem run_of_exhausted {state : Search} (h : p.AtSolution)
    (hreply : listener (p.state.solution vars) p.environment p.value = (.continue, env, value))
    (hback : p.state.backtrack config steps = .exhausted state) :
    run config index vars listener (steps + 1) p =
      ⟨.finished ⟨p.solutions + 1, state.inferences, false⟩, env, value⟩ := by
  rw [run, turn_of_atSolution h hreply, retry, hback]

/-- How a search ends that is asked to stop at its last solution so far: as interrupted if
there is an alternative, and as finished if there is none. -/
inductive StopsWith (config : Config) (p : Progress α) (steps : Nat) : Ending → Prop
  /-- There was an alternative. -/
  | interrupted {state : Search} : p.state.backtrack config steps = .resumed state →
      StopsWith config p steps (.failed .interrupted)
  /-- No alternative was left. -/
  | finished {state : Search} : p.state.backtrack config steps = .exhausted state →
      StopsWith config p steps (.finished ⟨p.solutions + 1, state.inferences, false⟩)

/-- A search that is asked to stop at a solution ends there. -/
theorem exists_run_of_atSolution (index : ClauseIndex) (hsound : p.state.Sound)
    (htractable : (Exploration.tractability config).OfExploration p.state.view)
    (h : p.AtSolution)
    (hreply : listener (p.state.solution vars) p.environment p.value = (.continue, env, value))
    (hset : env.interrupted = true) :
    ∃ ending enough, StopsWith config p enough ending ∧
      ∀ steps ≥ enough + 2, run config index vars listener steps p = ⟨ending, env, value⟩ := by
  obtain ⟨enough, hends⟩ := exists_backtrack hsound htractable
  have hmore : ∀ steps ≥ enough,
      p.state.backtrack config steps = p.state.backtrack config enough :=
    fun steps hsteps => backtrack_mono hsteps hends
  cases hback : p.state.backtrack config enough with
  | unfinished => exact absurd hback hends
  | resumed state =>
    refine ⟨_, enough, .interrupted hback, fun steps hsteps => ?_⟩
    obtain ⟨rest, rfl⟩ := Nat.exists_eq_add_of_le' (Nat.le_of_add_left_le hsteps)
    exact run_of_resumed h hreply hset ((hmore _ (by omega)).trans hback)
  | exhausted state =>
    refine ⟨_, enough, .finished hback, fun steps hsteps => ?_⟩
    obtain ⟨rest, rfl⟩ := Nat.exists_eq_add_of_le' (Nat.one_le_of_lt hsteps)
    exact run_of_exhausted h hreply ((hmore _ (by omega)).trans hback)

end Search

namespace Engine

variable {α : Type}

/-- A request to interrupt that stands when the listener has handled a solution and lets the
search go on is never lost. No further solution is delivered, and the search ends as
interrupted, or as finished if no alternative was left. The request may come from anywhere: the
listener may run queries on the same engine, as long as the request stands when it answers. -/
theorem interrupted_stops (engine : Engine) (goal : Term) (listener : Listener α) (value : α)
    {p : Progress (List Solution × α)}
    (hreached : ReflTransGen
      (Search.Follows engine.config engine.index goal.normalize.vars listener.recording)
      (engine.begin goal ([], value)) p)
    (hat : p.AtSolution) {env : Environment} {value' : α}
    (hreply : listener (p.state.solution goal.normalize.vars) p.environment p.value.2 =
      (.continue, env, value'))
    (hset : env.interrupted = true) :
    p.value.1.length = p.solutions ∧
      ∃ ending enough, Search.StopsWith engine.config p enough ending ∧
        ∃ least, ∀ steps ≥ least,
          engine.solve steps goal listener value = ⟨ending, env, value'⟩ ∧
          engine.delivered steps goal listener value =
            p.value.1 ++ [p.state.solution goal.normalize.vars] := by
  have hstart : (engine.begin goal (([] : List Solution), value)).state.Sound :=
    Search.sound_start _
  have htractable : (Exploration.tractability engine.config).OfExploration
      (engine.begin goal (([] : List Solution), value)).state.view := by
    rw [begin, Search.view_start]
    exact Exploration.ofExploration_tractability_start _ _
  obtain ⟨hsound, hview⟩ := Search.tractable_of_reached hstart htractable hreached
  have hrecorded : listener.recording (p.state.solution goal.normalize.vars) p.environment
      p.value = (.continue, env, p.value.1 ++ [p.state.solution goal.normalize.vars], value') := by
    rw [Listener.recording, hreply]
  obtain ⟨ending, enough, hstops, hrun⟩ :=
    Search.exists_run_of_atSolution engine.index hsound hview hat hrecorded hset
  obtain ⟨length, least, hfrom⟩ := Search.exists_run_of_reached hreached
  refine ⟨Search.length_of_reached_recording hstart rfl hreached, ending, enough, hstops,
    max least (enough + 2) + length, fun steps hsteps => ?_⟩
  obtain ⟨rest, rfl⟩ := Nat.exists_eq_add_of_le' (Nat.le_of_add_left_le hsteps)
  have hreport : Search.run engine.config engine.index goal.normalize.vars listener.recording
      (rest + length) (engine.begin goal ([], value)) =
        ⟨ending, env, p.value.1 ++ [p.state.solution goal.normalize.vars], value'⟩ := by
    rw [hfrom rest (by omega), hrun rest (by omega)]
  constructor
  · have hforget := Search.run_recording engine.config engine.index goal.normalize.vars
      (rest + length) listener (engine.begin goal ([], value))
    rw [hreport] at hforget
    exact hforget.symm
  · exact congrArg (·.value.1) hreport

/-- The goal `X = a ; X = b`. -/
def eitherValue : Term :=
  .apply ";" [.apply "=" [.var ⟨"X", none⟩, .atom "a"], .apply "=" [.var ⟨"X", none⟩, .atom "b"]]

/-- An engine without clauses. -/
def bare : Engine := ofConfig {}

/-- Counts the solutions, and asks at each of them to interrupt the search. -/
def stopping : Listener Nat := fun _ env count => (.continue, env.interrupt, count + 1)

/-- The second goal is left for later. -/
def later : ChoicePoint where
  context := ⟨0, 1⟩
  mark := 0
  alternative := .goal ⟨0, 4, .compound "=" [.var ⟨"X", some 0⟩, .atom "b"] 1⟩ 0 0 []

/-- The search is about to do the first goal. -/
def offered : Progress (List Solution × Nat) where
  solutions := 0
  state :=
    { store := .empty
      context := ⟨0, 1⟩
      continuation := [.goal ⟨0, 1, .compound "=" [.var ⟨"X", some 0⟩, .atom "a"] 1⟩ 0 0]
      choices := #[later]
      inferences := 0 }
  environment := .initial
  value := ([], 0)

/-- The search has found `a` for `X`. -/
def midway : Progress (List Solution × Nat) where
  solutions := 0
  state :=
    { store := ⟨#[⟨0, ⟨0, 3, .atom "a"⟩, 0⟩]⟩
      context := ⟨1, 1⟩
      continuation := []
      choices := #[later]
      inferences := 0 }
  environment := .initial
  value := ([], 0)

/-- When `X = a ; X = b` is solved and interrupted at the first solution, the second one is not
delivered. -/
theorem interrupted_stops_either :
    midway.AtSolution ∧ ∃ least, ∀ steps ≥ least,
      bare.solve steps eitherValue stopping 0 =
        ⟨.failed .interrupted, Environment.initial.interrupt, 1⟩ ∧
      bare.delivered steps eitherValue stopping 0 =
        [midway.state.solution eitherValue.normalize.vars] := by
  have hat : midway.AtSolution := ⟨rfl, rfl⟩
  have hfirst : Search.turn bare.config bare.index eitherValue.normalize.vars stopping.recording 8
      (bare.begin eitherValue ([], 0)) = .going offered := by cbv
  have hsecond : Search.turn bare.config bare.index eitherValue.normalize.vars stopping.recording 8
      offered = .going midway := by cbv
  obtain ⟨_, ending, enough, hstops, hsolve⟩ := interrupted_stops bare eitherValue stopping 0
    (.tail (.single ⟨8, hfirst⟩) ⟨8, hsecond⟩) hat rfl rfl
  refine ⟨hat, ?_⟩
  cases hstops with
  | interrupted => exact hsolve
  | finished hback =>
    -- The second goal is left, whatever number of steps is granted.
    rw [Search.backtrack_eq] at hback
    cases hback

/-- Counts the solutions. At the first it asks to interrupt the search, and then it asks on the
same engine whether `true` holds. -/
def withdrawing : Listener Nat := fun _ env count =>
  let env := if count = 0 then ({ bare with environment := env.interrupt }.ask 4 (.atom "true")).2
    else env
  (.continue, env, count + 1)

/-- A query takes back the request that was made before it: both solutions of `X = a ; X = b`
are delivered. -/
theorem request_withdrawn :
    (bare.solve 8 eitherValue withdrawing 0).ending = .finished ⟨2, 0, false⟩ ∧
      (bare.delivered 8 eitherValue withdrawing 0).length = 2 := by
  constructor
  · cbv
  · cbv

end Engine

end ClauseResolution
