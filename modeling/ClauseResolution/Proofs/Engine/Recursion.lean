import ClauseResolution.Proofs.Database.Routing
import ClauseResolution.Proofs.Search.Refinement

/-!
# Solving queries by recursion

An engine that hands the solutions of a query to a listener that only watches finds the
answers that the recursion on goals finds, as long as no limit is exceeded: the same
substitutions in the same order, and the same end.
-/

namespace ClauseResolution

/-- The substitution of a solution, apart from the store. -/
def Solution.substitution (s : Solution) : Substitution := s.store.substitution s.context

/-- How a search comes to its end by itself: no alternative is left, or there is an
error. -/
def Ending.result : Ending → Option (Except SearchError Unit)
  | .finished outcome => if outcome.aborted then none else some (.ok ())
  | .failed cause => some (.error cause)
  | .unfinished => none

namespace Engine

/-- Keeps every solution and lets the search go on. -/
def watch : Listener (List Solution) := fun s env given => (.continue, env, given ++ [s])

/-- The trace of a query by recursion down to a depth. A cut in the query has no effect
outside. -/
def trace (engine : Engine) (depth : Nat) (goal : Term) : Trace Empty :=
  ((Occurrence.whole 0 goal.normalize.term).trace
    (Call.trace engine.config engine.clauses depth) ⟨[], goal.normalize.vars.length⟩).enclosed

end Engine

namespace Search

variable {config : Config} {index : ClauseIndex} {vars : List Var} {steps count : Nat}
  {env : Environment}

/-- A report tells what is seen of an exploration, after the solutions given before. -/
structure Tells (given : List Solution) (report : Report (List Solution)) (seen : Trace Empty) :
    Prop where
  /-- The solutions are the answers that are seen. -/
  answers : report.value.map Solution.substitution =
    given.map Solution.substitution ++ seen.answers
  /-- The end is the same. -/
  result : report.ending.result = seen.result

/-- Taking up a goal is not reported. -/
theorem Tells.step {given : List Solution} {report : Report (List Solution)} {seen : Trace Empty}
    (h : Tells given report seen) : Tells given report seen.step := ⟨h.answers, h.result⟩

/-- The report at the end of a turn, or after it. -/
def report (config : Config) (index : ClauseIndex) (vars : List Var) (steps : Nat) :
    Turn (List Solution) → Report (List Solution)
  | .going progress => run config index vars Engine.watch steps progress
  | .ended report => report

/-- What is seen after going back is reported, if this holds of the state taken up. -/
theorem tells_retry {state : Search} (h : state.Sound) {given : List Solution}
    {rest : Exploration → Trace Empty}
    (hrest : ∀ state' : Search, state'.Sound →
      Tells given (run config index vars Engine.watch steps ⟨count, state', env, given⟩)
        (rest state'.view)) :
    Tells given (report config index vars steps (retry config steps ⟨count, state, env, given⟩))
      ((Exploration.backtrack config steps state.inferences state.view.branches).follow rest) := by
  obtain ⟨hsound, hview⟩ := backtrack_view config steps h
  rw [← hview, retry]
  cases hback : state.backtrack config steps with
  | resumed state' =>
    rw [hback] at hsound
    exact hrest state' hsound
  | exhausted state' => exact ⟨(List.append_nil _).symm, rfl⟩
  | unfinished => exact ⟨(List.append_nil _).symm, rfl⟩

/-- The report of a search that is only watched tells what is seen of its view. -/
theorem tells_run {state : Search} (h : state.Sound) (henv : env.interrupted = false)
    (given : List Solution) :
    Tells given (run config index vars Engine.watch steps ⟨count, state, env, given⟩)
      (state.view.observe config (index.matching env.providers) steps) := by
  induction steps generalizing state count given with
  | zero => exact ⟨(List.append_nil _).symm, rfl⟩
  | succ steps ih =>
    obtain ⟨hsound, hview⟩ := advance_view config (index.matching env.providers) steps h
    have hrun : run config index vars Engine.watch (steps + 1) ⟨count, state, env, given⟩ =
        report config index vars steps
          (turn config index vars Engine.watch steps ⟨count, state, env, given⟩) := by
      rw [run]
      cases turn config index vars Engine.watch steps ⟨count, state, env, given⟩ <;> rfl
    rw [hrun, turn, henv, if_neg Bool.false_ne_true, Exploration.observe, ← hview]
    cases hmove : state.advance config (index.matching env.providers) steps with
    | proceed state' =>
      rw [hmove] at hsound
      exact (ih hsound given).step
    | backtrack state' =>
      rw [hmove] at hsound
      exact (tells_retry hsound fun state'' hsound' => ih hsound' given).step
    | solution state' =>
      rw [hmove] at hsound
      have hafter := tells_retry hsound fun state'' hsound' =>
        (ih hsound' (given ++ [state'.solution vars]) : Tells _ (run config index vars
          Engine.watch steps ⟨count + 1, state'', env, _⟩) _)
      refine ⟨hafter.answers.trans ?_, hafter.result⟩
      rw [List.map_append, List.append_assoc]
      rfl
    | error cause => exact ⟨(List.append_nil _).symm, rfl⟩
    | unfinished => exact ⟨(List.append_nil _).symm, rfl⟩

end Search

namespace Engine

/-- The report of a query tells what is seen of the exploration of its goal. -/
theorem tells_solve (engine : Engine) (goal : Term) (steps : Nat) :
    Search.Tells [] (engine.solve steps goal watch [])
      ((Exploration.start goal.normalize).observe engine.config engine.clauses steps) := by
  rw [← Search.view_start]
  exact Search.tells_run (Search.sound_start goal.normalize) rfl []

/-- The meaning of the state about to run a query is the trace of the query. -/
theorem trace_start (engine : Engine) (goal : Term) (depth : Nat) :
    (Exploration.start goal.normalize).trace engine.config engine.clauses depth depth =
      engine.trace depth goal := Trace.finish_pass _

/-- As long as no limit is exceeded, a search finds what the recursion on goals finds. A
search that is granted enough steps ends after certain answers in a certain way exactly
if deep enough recursion does. And whether or not they end, certain answers are the first
ones of the search exactly if they are the first ones of the recursion. -/
theorem solve_refines_trace (engine : Engine) (goal : Term)
    (hlimits : ∀ steps cause, (engine.solve steps goal watch []).ending = .failed cause →
      ¬ cause.IsLimit) :
    (∀ answers result,
      (∃ steps, (engine.solve steps goal watch []).value.map Solution.substitution = answers ∧
        (engine.solve steps goal watch []).ending.result = some result) ↔
      ∃ depth, (engine.trace depth goal).answers = answers ∧
        (engine.trace depth goal).result = some result) ∧
    ∀ answers,
      (∃ steps, answers <+:
        (engine.solve steps goal watch []).value.map Solution.substitution) ↔
      ∃ depth, answers <+: (engine.trace depth goal).answers := by
  have hanswers : ∀ steps, (engine.solve steps goal watch []).value.map Solution.substitution =
      ((Exploration.start goal.normalize).observe engine.config engine.clauses steps).answers :=
    fun steps => (engine.tells_solve goal steps).answers
  have hresult := fun steps => (engine.tells_solve goal steps).result
  have hfree : ∀ steps, ¬ ((Exploration.start goal.normalize).observe engine.config
      engine.clauses steps).Limited := by
    rintro steps ⟨cause, hcause, hlimit⟩
    rw [← hresult] at hcause
    refine hlimits steps cause ?_ hlimit
    cases hending : (engine.solve steps goal watch []).ending with
    | finished outcome =>
      rw [hending, Ending.result] at hcause
      split at hcause <;> cases hcause
    | failed cause' =>
      rw [hending, Ending.result] at hcause
      cases hcause
      rfl
    | unfinished =>
      rw [hending] at hcause
      cases hcause
  have hnested := Exploration.nested_start goal.normalize
  have hseen : ∀ steps, (Exploration.start goal.normalize).observe engine.config engine.clauses
      steps ≤ engine.trace steps goal := by
    intro steps
    rw [← trace_start]
    exact Exploration.observe_le_trace hnested (le_refl steps) (hfree steps)
  have hfound : ∀ depth, ∃ steps, engine.trace depth goal ≤
      (Exploration.start goal.normalize).observe engine.config engine.clauses steps := by
    intro depth
    obtain ⟨bound, hbound⟩ := Exploration.le_observe (le_refl depth)
      (le_of_eq (engine.trace_start goal depth).symm) hnested ⟨0, fun k _ => hfree k⟩
    exact ⟨bound, hbound bound (le_refl bound)⟩
  simp only [hanswers, hresult]
  refine ⟨fun answers result => ⟨?_, ?_⟩, fun answers => ⟨?_, ?_⟩⟩
  · rintro ⟨steps, rfl, hend⟩
    have heq := Trace.eq_of_le_of_result (hseen steps) hend
    exact ⟨steps, by rw [heq], by rw [heq]; exact hend⟩
  · rintro ⟨depth, rfl, hend⟩
    obtain ⟨steps, hle⟩ := hfound depth
    have heq := Trace.eq_of_le_of_result hle hend
    exact ⟨steps, by rw [heq], by rw [heq]; exact hend⟩
  · rintro ⟨steps, hfirst⟩
    exact ⟨steps, hfirst.trans (Trace.answers_prefix_of_le (hseen steps))⟩
  · rintro ⟨depth, hfirst⟩
    obtain ⟨steps, hle⟩ := hfound depth
    exact ⟨steps, hfirst.trans (Trace.answers_prefix_of_le hle)⟩

/-- A query that ends by itself within some number of steps exceeds no limit, whatever
number is granted. -/
theorem not_isLimit_of_result (engine : Engine) (goal : Term) {enough : Nat}
    (h : (engine.solve enough goal watch []).ending.result = some (.ok ())) (steps : Nat)
    (cause : SearchError) (hcause : (engine.solve steps goal watch []).ending = .failed cause) :
    ¬ cause.IsLimit := by
  have hfailed : (engine.solve steps goal watch []).ending.result = some (.error cause) := by
    rw [hcause]
    rfl
  rw [(engine.tells_solve goal _).result] at h hfailed
  rcases Nat.le_total enough steps with hle | hle
  · rw [Trace.eq_of_le_of_result (Exploration.observe_le_observe hle) h, h] at hfailed
    cases hfailed
  · rw [Trace.eq_of_le_of_result (Exploration.observe_le_observe hle) hfailed, hfailed] at h
    cases h

/-- The rule `p(X) :- X = a ; X = b, !` and the fact `p(c)`, which is cut off. -/
def cutting : List Clause :=
  let x : Term := .var ⟨"X", some 0⟩
  let assign (value : String) : Term := .compound "=" [x, .atom value] 1
  [⟨⟨"p", [x], 1⟩, .compound ";" [assign "a", .compound "," [assign "b", .atom "!"] 1] 1, ["X"], 0⟩,
    ⟨⟨"p", [.atom "c"], 0⟩, Clause.truth, [], 1⟩]

/-- An engine with these clauses. -/
def ofCutting : Engine := offering {} cutting

/-- The recursion finds the two answers that a search finds before the cut, and ends as
the search does. -/
theorem solve_refines_trace_cut :
    (ofCutting.solve 12 (.apply "p" [.var ⟨"X", none⟩]) watch []).value.length = 2 ∧
      ∃ depth, (ofCutting.trace depth (.apply "p" [.var ⟨"X", none⟩])).answers =
          (ofCutting.solve 12 (.apply "p" [.var ⟨"X", none⟩]) watch []).value.map
            Solution.substitution ∧
        (ofCutting.trace depth (.apply "p" [.var ⟨"X", none⟩])).result = some (.ok ()) := by
  have hend : (ofCutting.solve 12 (.apply "p" [.var ⟨"X", none⟩]) watch []).ending.result =
      some (.ok ()) := by cbv
  have hlimits := ofCutting.not_isLimit_of_result _ hend
  refine ⟨by cbv, ?_⟩
  exact ((ofCutting.solve_refines_trace _ hlimits).1 _ _).1 ⟨12, rfl, hend⟩

end Engine

end ClauseResolution
