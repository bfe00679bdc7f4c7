import ClauseResolution.Proofs.Engine.Soundness
import ClauseResolution.Proofs.Search.Covering

/-!
# A finished search has found every instance

When a search for a query of pure goals comes to its end, and the listener did not end
it, each instance of the query that is derivable is an instance of a solution that was
delivered. As long as no such solution was delivered the instance is on its way, so the
search cannot have run out of branches. The clauses may change while the search runs, as
long as those of the program remain and all are pure.
-/

namespace ClauseResolution

/-- The providers have every clause of the program for its own predicate, and all clauses
they have are clean and have pure bodies. -/
structure ClauseIndex.Serves (index : ClauseIndex) (providers : Array Provider)
    (program : Set Clause) : Prop where
  /-- The clauses of the program are there. -/
  offered : ∀ clause ∈ program, clause ∈ index.matching providers clause.key
  /-- All clauses are clean and have pure bodies. -/
  pure : ∀ key, ∀ clause ∈ index.matching providers key, clause.IsClean ∧ clause.body.IsPure

/-- The query with the values of the solution in the place of variables has an instance
that is the same as a term. -/
def Solution.Instantiates (query u : Term) (solution : Solution) : Prop :=
  ∃ t, solution.reify query = some t ∧ ∃ η : Assignment, (t.assign η).same u

section Keeping

variable {α : Type} {config : Config} {index : ClauseIndex} {vars : List Var} {steps : Nat}
  {listener : Listener α} {P : α → Prop}

/-- The listener keeps a property of its value. -/
def Listener.Preserves (listener : Listener α) (P : α → Prop) : Prop :=
  ∀ solution env value, P value → P (listener solution env value).2.2

/-- The property holds of the value after a turn. -/
def Turn.Has (P : α → Prop) : Turn α → Prop
  | .going p => P p.value
  | .ended report => P report.value

/-- Going back leaves the value of the listener as it is. -/
theorem Search.retry_has {p : Progress α} (h : P p.value) : (retry config steps p).Has P := by
  obtain ⟨count, state, env, value⟩ := p
  rw [retry]
  cases state.backtrack config steps <;> exact h

/-- A turn changes the value by the listener only. -/
theorem Search.turn_has (hlistener : listener.Preserves P) {p : Progress α} (h : P p.value) :
    (turn config index vars listener steps p).Has P := by
  obtain ⟨count, state, env, value⟩ := p
  rw [turn]
  split
  · exact h
  · cases state.advance config (index.matching env.providers) steps with
    | proceed | error | unfinished => exact h
    | backtrack state' => exact retry_has h
    | solution state' =>
      have hvalue := hlistener (state'.solution vars) env value h
      dsimp only
      generalize listener (state'.solution vars) env value = reply at hvalue
      obtain ⟨signal, env', value'⟩ := reply
      cases signal with
      | abort => exact hvalue
      | «continue» => exact retry_has hvalue

end Keeping

section Recording

variable {α : Type} (config : Config) (index : ClauseIndex) (vars : List Var) (steps : Nat)
  (listener : Listener α)

/-- A search under way without the solutions that were kept. -/
def Progress.forget (p : Progress (List Solution × α)) : Progress α :=
  ⟨p.solutions, p.state, p.environment, p.value.2⟩

/-- A report without the solutions that were kept. -/
def Report.forget (r : Report (List Solution × α)) : Report α :=
  ⟨r.ending, r.environment, r.value.2⟩

/-- A turn without the solutions that were kept. -/
def Turn.forget : Turn (List Solution × α) → Turn α
  | .going p => .going p.forget
  | .ended r => .ended r.forget

/-- The kept solutions can be forgotten before or after going back. -/
theorem Search.retry_forget (p : Progress (List Solution × α)) :
    (retry config steps p).forget = retry config steps p.forget := by
  obtain ⟨count, state, env, given, value⟩ := p
  simp only [retry, Progress.forget]
  cases state.backtrack config steps <;> rfl

/-- Keeping solutions does not disturb a turn. -/
theorem Search.turn_recording (p : Progress (List Solution × α)) :
    (turn config index vars listener.recording steps p).forget =
      turn config index vars listener steps p.forget := by
  obtain ⟨count, state, env, given, value⟩ := p
  change _ = turn config index vars listener steps ⟨count, state, env, value⟩
  rw [turn, turn]
  by_cases hinterrupted : env.interrupted = true
  · rw [if_pos hinterrupted, if_pos hinterrupted]
    rfl
  · rw [if_neg hinterrupted, if_neg hinterrupted]
    cases state.advance config (index.matching env.providers) steps with
    | proceed | error | unfinished => rfl
    | backtrack state' => exact retry_forget config steps _
    | solution state' =>
      simp only [Listener.recording]
      generalize listener (state'.solution vars) env value = reply
      obtain ⟨signal, env', value'⟩ := reply
      cases signal with
      | abort => rfl
      | «continue» => exact retry_forget config steps _

/-- Nor does it disturb a run. -/
theorem Search.run_recording (p : Progress (List Solution × α)) :
    (run config index vars listener.recording steps p).forget =
      run config index vars listener steps p.forget := by
  induction steps generalizing p with
  | zero => rfl
  | succ steps ih =>
    have hturn := turn_recording config index vars steps listener p
    rw [run, run, ← hturn]
    cases turn config index vars listener.recording steps p with
    | going p' => exact ih p'
    | ended report => rfl

end Recording

section Run

variable {α : Type} {program : Set Clause} {query u : Term} {config : Config}
  {index : ClauseIndex} {vars : List Var} {steps : Nat} {listener : Listener α}

/-- A solution that some assignment satisfies has what the assignment makes of the query. -/
theorem Search.instantiates_of_attests {state : Search} {θ : Assignment} {frames : List Frame}
    (hregular : state.view.substitution.Regular) (hquery : query.isNaNFree)
    (h : θ.Attests program query u state.view.substitution frames) (vars : List Var) :
    (state.solution vars).Instantiates query u := by
  refine ⟨_, Store.reify_eq_solution hregular.acyclic query, θ, ?_⟩
  exact Term.same_trans (hregular.same_assign_solution h.nanFree h.satisfies hquery) h.query

/-- One of the solutions that were kept has the instance. -/
def Found (query u : Term) (record : List Solution × α) : Prop :=
  ∃ solution ∈ record.1, solution.Instantiates query u

/-- Keeping more solutions does not lose the one that was found. -/
theorem Listener.recording_preserves : listener.recording.Preserves (Found query u) := by
  rintro solution env ⟨given, value⟩ ⟨found, hmem, hinstance⟩
  exact ⟨found, List.mem_append_left _ hmem, hinstance⟩

/-- A search under way is in order, and the instance is on its way. -/
structure Progress.Promising (index : ClauseIndex) (program : Set Clause) (query u : Term)
    (p : Progress (List Solution × α)) : Prop where
  /-- The search is sound. -/
  sound : p.state.Sound
  /-- Its substitutions are regular and its goals are plain. -/
  justified : p.state.view.Justified {clause | clause.IsClean} query
  /-- Nothing lies beyond a top. -/
  closed : p.state.view.Closed
  /-- The clauses are there. -/
  serves : index.Serves p.environment.providers program
  /-- The instance is on its way. -/
  view : p.state.view.Promising program query u

/-- A turn goes on towards the instance, or has found it, or ends before the search is
finished. -/
def Turn.Promising (index : ClauseIndex) (program : Set Clause) (query u : Term) :
    Turn (List Solution × α) → Prop
  | .going p => p.Promising index program query u ∨ Found query u p.value
  | .ended report => (∃ count inferences, report.ending = .finished ⟨count, inferences, false⟩) →
      Found query u report.value

/-- A turn after which the instance was found has it on its way. -/
theorem Turn.Has.promising {turn : Turn (List Solution × α)} (h : turn.Has (Found query u)) :
    turn.Promising index program query u := by
  cases turn with
  | going p => exact Or.inr h
  | ended report => exact fun _ => h

/-- Going back loses no instance. -/
theorem Search.retry_promising (hcheck : config.occursCheck = true)
    {p : Progress (List Solution × α)} (hsound : p.state.Sound)
    (hjustified : ∀ branch ∈ p.state.view.branches,
      branch.Justified {clause | clause.IsClean} query)
    (hclosed : ∀ branch ∈ p.state.view.branches, branch.Closed)
    (hserves : index.Serves p.environment.providers program)
    (hpure : ∀ branch ∈ p.state.view.branches, branch.IsPure)
    (h : ∃ branch ∈ p.state.view.branches, branch.Promises program query u) :
    (retry config steps p).Promising index program query u := by
  have hreturn : (Exploration.backtrack config steps p.state.inferences
      p.state.view.branches).Promising program query u :=
    Exploration.backtrack_promising hcheck hjustified hclosed hpure h
  have hclean : ∀ clause ∈ {clause : Clause | clause.IsClean}, clause.Numbered :=
    fun _ hclause => Clause.IsClean.numbered hclause
  refine retry_cases hsound ?resumed ?exhausted ?unfinished
  case resumed =>
    intro state hstate hback
    rw [hback] at hreturn
    exact Or.inl ⟨hstate, Exploration.backtrack_justified hcheck hclean hjustified hback,
      Exploration.backtrack_closed hclosed hback, hserves, hreturn⟩
  case exhausted =>
    -- No branch was left, but the instance was on one.
    intro inferences hback
    rw [hback] at hreturn
    exact hreturn.elim
  case unfinished =>
    rintro ⟨_, _, hend⟩
    cases hend

/-- A turn loses no instance. -/
theorem Search.turn_promising (hcheck : config.occursCheck = true) (hquery : query.isNaNFree)
    (hlistener : ∀ solution env value, index.Serves env.providers program →
      index.Serves (listener solution env value).2.1.providers program)
    {p : Progress (List Solution × α)} (h : p.Promising index program query u) :
    (turn config index vars listener.recording steps p).Promising index program query u := by
  obtain ⟨hsound, hjustified, hclosed, hserves, hview⟩ := h
  have hclean : ∀ clause ∈ {clause : Clause | clause.IsClean}, clause.Numbered :=
    fun _ hclause => Clause.IsClean.numbered hclause
  have hjustified' : Stage.Justified {clause | clause.IsClean} query
      (p.state.view.advance config (index.matching p.environment.providers) steps) :=
    Exploration.advance_justified hcheck hclean
      (fun key clause hmem => (hserves.pure key clause hmem).1) hjustified
  have hclosed' : Stage.Closed
      (p.state.view.advance config (index.matching p.environment.providers) steps) :=
    Exploration.advance_closed
      (fun key clause hmem => (hserves.pure key clause hmem).1.isBuilt.placed) hclosed
  have hstage : Stage.Promising program query u
      (p.state.view.advance config (index.matching p.environment.providers) steps) :=
    Exploration.advance_promising hcheck hserves.offered hserves.pure hjustified hclosed hview
  refine turn_cases hsound ?failed ?unfinished ?proceed ?backtrack ?aborted ?continued
  case proceed =>
    intro state hstate hmove
    rw [hmove] at hjustified' hclosed' hstage
    exact Or.inl ⟨hstate, hjustified', hclosed', hserves, hstage⟩
  case backtrack =>
    intro state hstate hmove
    rw [hmove] at hjustified' hclosed' hstage
    exact retry_promising hcheck hstate hjustified' hclosed'.branches hserves hstage.1 hstage.2
  case continued =>
    intro state env record hstate hmove hreply
    rw [hmove] at hjustified' hclosed' hstage
    have hserves' := hlistener (state.solution vars) p.environment p.value.2 hserves
    simp only [Listener.recording] at hreply
    generalize listener (state.solution vars) p.environment p.value.2 = reply at hserves' hreply
    obtain ⟨signal, env', value⟩ := reply
    cases hreply
    rcases hstage.promise with ⟨θ, hattests⟩ | hbranch
    · -- The solution that is delivered here has the instance.
      refine Turn.Has.promising (retry_has ⟨state.solution vars, by simp, ?_⟩)
      exact instantiates_of_attests hjustified'.1.regular hquery hattests vars
    · exact retry_promising hcheck hstate hjustified'.2 hclosed'.branches hserves'
        hstage.branches hbranch
  -- In the other cases the search ends before it is finished.
  all_goals
    intros
    rintro ⟨_, _, hend⟩
    cases hend

/-- A run that is finished has found the instance. -/
theorem Search.found_run (hcheck : config.occursCheck = true) (hquery : query.isNaNFree)
    (hlistener : ∀ solution env value, index.Serves env.providers program →
      index.Serves (listener solution env value).2.1.providers program)
    {p : Progress (List Solution × α)} (h : p.Promising index program query u)
    {count inferences : Nat}
    (hend : (run config index vars listener.recording steps p).ending =
      .finished ⟨count, inferences, false⟩) :
    Found query u (run config index vars listener.recording steps p).value := by
  have hturn : ∀ steps (q : Progress (List Solution × α)),
      q.Promising index program query u ∨ Found query u q.value →
      (turn config index vars listener.recording steps q).Promising index program query u := by
    rintro steps q (hpromising | hfound)
    · exact turn_promising hcheck hquery hlistener hpromising
    · exact Turn.Has.promising (turn_has Listener.recording_preserves hfound)
  refine run_keeps (I := fun q => q.Promising index program query u ∨ Found query u q.value)
    (K := fun report => (∃ count inferences, report.ending =
      .finished ⟨count, inferences, false⟩) → Found query u report.value)
    (fun q _ hfinished => ?_) (fun steps q q' hq hnext => ?_) (fun steps q report hq hnext => ?_)
    (Or.inl h) ⟨count, inferences, hend⟩
  · obtain ⟨_, _, hlimit⟩ := hfinished
    cases hlimit
  · have hafter := hturn steps q hq
    rwa [hnext] at hafter
  · have hafter := hturn steps q hq
    rwa [hnext] at hafter

end Run

namespace Engine

/-- A finished search is complete. With the occurs check, for a goal and clauses without
anonymous variables and without numbers that are not numbers, built only from calls of
predicates, conjunctions, disjunctions, truth, failure and equations: when the search ends
without an error and was not ended by the listener, every derivable instance of the goal
is the same as an instance of the goal under a solution that was delivered. Instances with
a number that is not a number are not the same as any term. The listener may change the
clauses, as long as those of the program remain and all are pure. -/
theorem delivered_complete {α : Type} (engine : Engine) (program : Set Clause) (goal : Term)
    (listener : Listener α) (hcheck : engine.config.occursCheck = true) (hgoal : goal.isClean)
    (hpure : goal.IsPure)
    (hengine : engine.index.Serves engine.environment.providers program)
    (hlistener : ∀ solution env value, engine.index.Serves env.providers program →
      engine.index.Serves (listener solution env value).2.1.providers program)
    {steps : Nat} {value : α} {count inferences : Nat}
    (hend : (engine.solve steps goal listener value).ending =
      .finished ⟨count, inferences, false⟩) :
    ∀ θ : Assignment, (goal.normalize.term.assign θ).isNaNFree →
      Derivable program (goal.normalize.term.assign θ) →
      ∃ solution ∈ engine.delivered steps goal listener value,
        ∃ t, solution.reify goal.normalize.term = some t ∧
          ∃ η : Assignment, (t.assign η).same (goal.normalize.term.assign θ) := by
  intro θ hfree hderivable
  have hquery := Term.isPlain_normalize hgoal
  have hstart : Progress.Promising engine.index program goal.normalize.term
      (goal.normalize.term.assign θ)
      (⟨0, Search.start goal.normalize, { engine.environment with interrupted := false },
        ([], value)⟩ : Progress (List Solution × α)) := by
    refine ⟨Search.sound_start _, ?_, ?_, hengine, ?_⟩
    · rw [Search.view_start]
      exact Exploration.start_justified hgoal
    · rw [Search.view_start]
      exact Exploration.start_closed goal
    · rw [Search.view_start]
      exact Exploration.start_promising hpure hfree hderivable
  have hrecorded : (engine.solve steps goal listener.recording ([], value)).ending =
      .finished ⟨count, inferences, false⟩ := by
    rw [← hend]
    exact congrArg Report.ending (Search.run_recording engine.config engine.index
      goal.normalize.vars steps listener ⟨0, Search.start goal.normalize, _, ([], value)⟩)
  exact Search.found_run hcheck (Term.isNaNFree_of_isPlain hquery) hlistener hstart hrecorded

/-- An engine that has the fact and the rule each for its own predicate. -/
def sorted : Engine :=
  { Engine.ofConfig { occursCheck := true } with
    environment := ⟨#[.external fun key => if key = "p/1" then [chained] else [fact]], false, 2⟩ }

/-- Counts the solutions. -/
def tally : Listener Nat := fun _ env count => (.continue, env, count + 1)

/-- The clauses for `p` are the rule, and those for other predicates the fact. -/
theorem mem_sorted {key : String} {clause : Clause} :
    clause ∈ sorted.index.matching sorted.environment.providers key ↔
      clause ∈ if key = "p/1" then [chained] else [fact] := by
  simp [sorted, matching_ofConfig, theoryNumber, databaseNumber, Provider.matching]

/-- Every clause is served for its own predicate. -/
theorem serves_sorted : sorted.index.Serves sorted.environment.providers
    {clause | clause = fact ∨ clause = chained} := by
  refine ⟨fun clause hclause => mem_sorted.2 ?_, fun key clause hclause => ?_⟩
  · rcases hclause with rfl | rfl
    · have hkey : fact.key ≠ "p/1" := by decide
      exact (if_neg hkey).symm ▸ List.mem_singleton.2 rfl
    · have hkey : chained.key = "p/1" := by decide
      exact (if_pos hkey).symm ▸ List.mem_singleton.2 rfl
  · have hmem : clause = fact ∨ clause = chained := by
      have hclause := mem_sorted.1 hclause
      split at hclause
      · exact Or.inr (List.mem_singleton.1 hclause)
      · exact Or.inl (List.mem_singleton.1 hclause)
    refine ⟨isClean_small hmem, ?_⟩
    rcases hmem with rfl | rfl
    · exact .atom .truth
    · exact .predicate (by decide)

/-- The goal `p(Z) ; Z = b` has two solutions. Its instance with `b` for `Z` is derivable, and
is an instance of one of them. -/
theorem delivered_complete_disjunction :
    let goal : Term :=
      .apply ";" [.apply "p" [.var ⟨"Z", none⟩], .apply "=" [.var ⟨"Z", none⟩, .atom "b"]]
    (sorted.solve 12 goal tally 0).ending = .finished ⟨2, 2, false⟩ ∧
      ∃ solution ∈ sorted.delivered 12 goal tally 0,
        ∃ t, solution.reify goal.normalize.term = some t ∧ ∃ η : Assignment,
          (t.assign η).same
            (.apply ";" [.apply "p" [.atom "b"], .apply "=" [.atom "b", .atom "b"]]) := by
  intro goal
  let θ : Assignment := fun _ => some (.atom "b")
  have hend : (sorted.solve 12 goal tally 0).ending = .finished ⟨2, 2, false⟩ := by cbv
  have hinstance : goal.normalize.term.assign θ =
      .apply ";" [.apply "p" [.atom "b"], .apply "=" [.atom "b", .atom "b"]] := by cbv
  have hpure : goal.IsPure := .either (.predicate (by decide)) .unify
  have hderivable : Derivable {clause | clause = fact ∨ clause = chained}
      (.apply ";" [.apply "p" [.atom "b"], .apply "=" [.atom "b", .atom "b"]]) :=
    .right (.unify (Term.same_self rfl))
  have hfound := delivered_complete sorted {clause | clause = fact ∨ clause = chained} goal tally
    rfl (by decide) hpure serves_sorted (fun _ _ _ h => h) hend θ (by rw [hinstance]; decide)
    (by rwa [hinstance])
  rw [hinstance] at hfound
  exact ⟨hend, hfound⟩

end Engine

end ClauseResolution
