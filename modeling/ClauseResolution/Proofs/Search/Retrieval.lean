import ClauseResolution.Engine.Solve
import ClauseResolution.Proofs.Search.Derivation
import ClauseResolution.Proofs.Search.Pruning

/-!
# Goals that match one fact

A goal for which a single fact is tried, among clauses for other predicates, is done in two turns.
The first one enters the fact and leaves at most clauses for other predicates to go back to. The
second one delivers the solution, and whatever the listener wants then, the search is at its end.
-/

namespace ClauseResolution

/-- A call of the user is read as a call of a predicate. -/
theorem Goal.ofCall_of_user {call : Call} (h : isControl call.functor call.args.length = false) :
    Goal.ofCall call = .ok (.predicate call) := by
  have hnamed : ¬ call.functor ∈ reserved := by
    rw [← Bool.not_eq_true, isControl_iff, not_or] at h
    exact h.1
  cases hgoal : Goal.ofCall call with
  | error cause =>
    -- An error is reported under reserved names only.
    unfold ofCall at hgoal
    split at hgoal <;> try cases hgoal
    · split at hgoal <;> cases hgoal
    · rw [if_neg (by simpa using hnamed)] at hgoal
      cases hgoal
  | ok goal =>
    cases Goal.asks_of_ofCall hgoal with
    | predicate => rfl
    | truth | cut | both | either | ifThenElse | ifThen | call | unify | differ =>
      simp [isControl, reserved] at h
    | failure hname | negation hname =>
      rcases hname with rfl | rfl <;> simp [isControl, reserved] at h

section Single

variable {config : Config} {steps : Nat} {call : Call} {s s' t : Substitution} {clause : Clause}
  {clauses before rest : List Clause} {depth inferences : Nat} {next : List Frame}
  {branches : List Branch}

namespace Substitution

/-- A clause for another predicate does not match. -/
theorem unifyHead_of_key_ne (h : clause.key ≠ call.indicator) (c : Context) :
    t.unifyHead config steps call (clause.rename c).head = .clash := by
  obtain ⟨args, varCount, hterm, hargs⟩ := clause.exists_term_rename_head c
  rw [unifyHead, hterm]
  exact if_neg (Call.not_fits_of_key_ne h hargs)

/-- Clauses for other predicates are passed over. -/
theorem firstMatch_append (h : ∀ clause ∈ before, clause.key ≠ call.indicator) :
    s.firstMatch config steps call (before ++ clauses) =
      s.firstMatch config steps call clauses := by
  induction before with
  | nil => rfl
  | cons clause before ih =>
    obtain ⟨hclause, hbefore⟩ := List.forall_mem_cons.1 h
    rw [List.cons_append, firstMatch, unifyHead_of_key_ne hclause]
    exact ih hbefore

/-- Among clauses for other predicates nothing is found. -/
theorem firstMatch_of_key_ne (h : ∀ clause ∈ rest, clause.key ≠ call.indicator) :
    s.firstMatch config steps call rest = .missing := by
  rw [← List.append_nil rest, firstMatch_append h, firstMatch]

end Substitution

namespace Exploration

/-- The branch that is left for clauses, if there are any. -/
def leftover (s : Substitution) (call : Call) (rest : List Clause) (depth : Nat)
    (next : List Frame) : List Branch :=
  if rest.isEmpty then [] else [⟨s, .clauses call rest depth next⟩]

/-- The fact is entered, and the clauses after it are left. -/
theorem enter_single {e : Exploration} (hbranches : e.branches = [])
    (hbefore : ∀ clause ∈ before, clause.key ≠ call.indicator) (hfact : clause.isFact = true)
    (hunify : (e.substitution.allocate clause.varCount).unifyHead config steps call
      (clause.rename e.substitution.context).head = .unified s') :
    enter config steps call (before ++ clause :: rest) depth next e =
      .proceed ⟨s', next, leftover e.substitution call rest depth next, e.inferences⟩ := by
  rw [enter, Substitution.firstMatch_append hbefore, Substitution.firstMatch, hunify]
  simp only [hfact, if_true, hbranches, leftover]

/-- Going back to clauses for other predicates leads to the end. -/
theorem backtrack_leftover (hrest : ∀ clause ∈ rest, clause.key ≠ call.indicator) :
    backtrack config steps inferences (leftover s call rest depth next) =
      .exhausted inferences := by
  rw [leftover]
  split
  · rw [backtrack]
  · rw [backtrack, enter, Substitution.firstMatch_of_key_ne hrest]
    dsimp only
    rw [backtrack]

/-- The first turn of a search for a goal of the user with a single fact. -/
theorem advance_start {query : Normalized} {clausesOf : String → List Clause}
    (hquery : Call.ofOccurrence (.whole 0 query.term) = .ok call)
    (huser : isControl call.functor call.args.length = false)
    (hdepth : 0 < config.maxDepth) (hroom : config.maxInferences ≠ some 0)
    (hclauses : clausesOf call.indicator = before ++ clause :: rest)
    (hbefore : ∀ clause ∈ before, clause.key ≠ call.indicator) (hfact : clause.isFact = true)
    (hunify : (Substitution.allocate ⟨[], query.vars.length⟩ clause.varCount).unifyHead config steps
      call (clause.rename ⟨0, query.vars.length⟩).head = .unified s') :
    (start query).advance config clausesOf steps =
      .proceed ⟨s', [], leftover ⟨[], query.vars.length⟩ call rest 0 [], 1⟩ := by
  have hderef : (⟨[], query.vars.length⟩ : Substitution).deref (.whole 0 query.term) =
      .whole 0 query.term := rfl
  have hlimit : config.maxInferences.filter (· < 0 + 1) = none := by
    cases hmax : config.maxInferences with
    | none => rfl
    | some limit =>
      have hpos : limit ≠ 0 := fun hzero => hroom (hzero ▸ hmax)
      simpa [Option.filter] using hpos
  rw [start, advance, hderef, hquery]
  dsimp only
  rw [performCall, Goal.ofCall_of_user huser]
  dsimp only [perform]
  rw [resolve, if_neg (Nat.not_le.2 hdepth), hlimit, hclauses]
  exact enter_single rfl hbefore hfact hunify

end Exploration

/-- The report of a search that delivers one solution and ends. -/
def Report.once {α : Type} (reply : Signal × Environment × α) : Report α :=
  ⟨.finished ⟨1, 1, reply.1 = .abort⟩, reply.2.1, reply.2.2⟩

/-- A turn in which a step goes on. -/
theorem Search.turn_proceed {α : Type} {index : ClauseIndex} {vars : List Var}
    {state state' : Search} {env : Environment} {listener : Listener α} {solutions : Nat}
    {value : α}
    (henv : env.interrupted = false)
    (hstep : state.advance config (index.matching env.providers) steps = .proceed state') :
    turn config index vars listener steps ⟨solutions, state, env, value⟩ =
      .going ⟨solutions, state', env, value⟩ := by
  simp only [turn, henv, hstep, Bool.false_eq_true, if_false]

/-- The turn that delivers the solution is the last one when nothing is left to go back to. -/
theorem Search.turn_last {α : Type} {index : ClauseIndex} {vars : List Var} {state : Search}
    {env : Environment} (listener : Listener α) (value : α) (hsound : state.Sound)
    (hview : state.view = ⟨s', [], branches, 1⟩) (henv : env.interrupted = false)
    (hback : Exploration.backtrack config steps 1 branches = .exhausted 1) :
    turn config index vars listener steps ⟨0, state, env, value⟩ =
      .ended (.once (listener (state.solution vars) env value)) := by
  obtain ⟨σ, c, continuation, choices, inferences⟩ := state
  obtain rfl : continuation = [] := congrArg Exploration.continuation hview
  obtain rfl : inferences = 1 := congrArg Exploration.inferences hview
  rw [turn, henv]
  simp only [Bool.false_eq_true, if_false, advance, Report.once]
  obtain ⟨signal, env', value'⟩ := listener (Search.solution ⟨σ, c, [], choices, 1⟩ vars) env value
  cases signal with
  | abort => rfl
  | «continue» =>
    have hend := (backtrack_view config steps hsound).2
    rw [hview, hback] at hend
    dsimp only
    rw [retry]
    cases hlast : backtrack config steps ⟨σ, c, [], choices, 1⟩ with
    | exhausted state =>
      rw [hlast] at hend
      have hcount : state.inferences = 1 := Exploration.Return.exhausted.inj hend
      dsimp only
      rw [hcount]
      rfl
    | resumed | unfinished =>
      rw [hlast] at hend
      cases hend

/-- A search for a goal of the user with a single fact delivers the solution in which the goal is
unified with the head of the fact, and ends. -/
theorem Engine.solve_single {α : Type} {engine : Engine} {goal : Term} (listener : Listener α)
    (value : α) (hcall : Call.ofOccurrence (.whole 0 goal.normalize.term) = .ok call)
    (huser : isControl call.functor call.args.length = false)
    (hdepth : 0 < engine.config.maxDepth) (hroom : engine.config.maxInferences ≠ some 0)
    (hclauses : engine.clauses call.indicator = before ++ clause :: rest)
    (hbefore : ∀ clause ∈ before, clause.key ≠ call.indicator)
    (hrest : ∀ clause ∈ rest, clause.key ≠ call.indicator) (hfact : clause.isFact = true)
    (hunify : (Substitution.allocate ⟨[], goal.normalize.vars.length⟩ clause.varCount).unifyHead
      engine.config (steps + 1) call (clause.rename ⟨0, goal.normalize.vars.length⟩).head =
        .unified s') :
    ∃ solution : Solution, solution.vars = goal.normalize.vars ∧
      solution.store.substitution solution.context = s' ∧
      engine.solve (steps + 2) goal listener value =
        .once (listener solution { engine.environment with interrupted := false } value) := by
  obtain ⟨hsound, hstep⟩ := Search.advance_view engine.config engine.clauses (steps + 1)
    (Search.sound_start goal.normalize)
  rw [Search.view_start, Exploration.advance_start hcall huser hdepth hroom hclauses hbefore hfact
    hunify] at hstep
  cases hmove : (Search.start goal.normalize).advance engine.config engine.clauses (steps + 1) with
  | proceed state =>
    rw [hmove] at hsound hstep
    have hview : state.view = _ := Stage.proceed.inj hstep
    let env : Environment := { engine.environment with interrupted := false }
    have hfirst : Search.turn engine.config engine.index goal.normalize.vars listener (steps + 1)
        ⟨0, Search.start goal.normalize, env, value⟩ = .going ⟨0, state, env, value⟩ :=
      Search.turn_proceed rfl hmove
    have hlast : Search.turn engine.config engine.index goal.normalize.vars listener steps
        ⟨0, state, env, value⟩ =
          .ended (.once (listener (state.solution goal.normalize.vars) env value)) :=
      Search.turn_last listener value hsound hview rfl (Exploration.backtrack_leftover hrest)
    refine ⟨state.solution goal.normalize.vars, rfl, congrArg Exploration.substitution hview, ?_⟩
    change Search.run engine.config engine.index goal.normalize.vars listener (steps + 2)
      ⟨0, Search.start goal.normalize, env, value⟩ = _
    rw [Search.run, hfirst]
    dsimp only
    rw [Search.run, hlast]
  | backtrack | solution | error | unfinished =>
    rw [hmove] at hstep
    cases hstep

end Single

end ClauseResolution
