import ClauseResolution.Engine.Solve
import ClauseResolution.Proofs.Search.View

/-!
# The turns of a search

A turn of a sound search is what its view does: the search fails, runs out of steps, goes
on, goes back, or has a solution, which is given to the listener. What is said of a search
under way or of its report is proved by these cases, and of a whole run from turn to turn.
-/

namespace ClauseResolution

namespace Search

variable {α : Type} {config : Config} {index : ClauseIndex} {vars : List Var} {steps : Nat}
  {listener : Listener α} {p : Progress α}

/-- Going back from a sound search takes up a branch of its view, or ends the search. -/
@[elab_as_elim]
theorem retry_cases {motive : Turn α → Prop} (hsound : p.state.Sound)
    (resumed : ∀ state : Search, state.Sound →
      Exploration.backtrack config steps p.state.inferences p.state.view.branches =
        .resumed state.view →
      motive (.going { p with state }))
    (exhausted : ∀ inferences,
      Exploration.backtrack config steps p.state.inferences p.state.view.branches =
        .exhausted inferences →
      motive (.ended ⟨.finished ⟨p.solutions, inferences, false⟩, p.environment, p.value⟩))
    (unfinished : motive (.ended ⟨.unfinished, p.environment, p.value⟩)) :
    motive (retry config steps p) := by
  obtain ⟨count, state, env, value⟩ := p
  obtain ⟨hsound', hview⟩ := backtrack_view config steps hsound
  rw [retry]
  cases hback : state.backtrack config steps with
  | resumed state' =>
    rw [hback] at hsound' hview
    exact resumed state' hsound' hview.symm
  | exhausted state' =>
    rw [hback] at hview
    exact exhausted state'.inferences hview.symm
  | unfinished => exact unfinished

/-- A turn of a sound search takes the step of its view. -/
@[elab_as_elim]
theorem turn_cases {motive : Turn α → Prop} (hsound : p.state.Sound)
    (failed : ∀ error, motive (.ended ⟨.failed error, p.environment, p.value⟩))
    (unfinished : motive (.ended ⟨.unfinished, p.environment, p.value⟩))
    (proceed : ∀ state : Search, state.Sound →
      p.state.view.advance config (index.matching p.environment.providers) steps =
        .proceed state.view →
      motive (.going { p with state }))
    (backtrack : ∀ state : Search, state.Sound →
      p.state.view.advance config (index.matching p.environment.providers) steps =
        .backtrack state.view →
      motive (retry config steps { p with state }))
    (aborted : ∀ (state : Search) env value, state.Sound →
      p.state.view.advance config (index.matching p.environment.providers) steps =
        .solution state.view →
      listener (state.solution vars) p.environment p.value = (.abort, env, value) →
      motive (.ended ⟨.finished ⟨p.solutions + 1, state.inferences, true⟩, env, value⟩))
    (continued : ∀ (state : Search) env value, state.Sound →
      p.state.view.advance config (index.matching p.environment.providers) steps =
        .solution state.view →
      listener (state.solution vars) p.environment p.value = (.continue, env, value) →
      motive (retry config steps ⟨p.solutions + 1, state, env, value⟩)) :
    motive (turn config index vars listener steps p) := by
  obtain ⟨count, state, env, value⟩ := p
  obtain ⟨hsound', hview⟩ := advance_view config (index.matching env.providers) steps hsound
  rw [turn]
  split
  · exact failed .interrupted
  · cases hmove : state.advance config (index.matching env.providers) steps with
    | proceed state' =>
      rw [hmove] at hsound' hview
      exact proceed state' hsound' hview.symm
    | backtrack state' =>
      rw [hmove] at hsound' hview
      exact backtrack state' hsound' hview.symm
    | solution state' =>
      rw [hmove] at hsound' hview
      dsimp only
      cases hreply : listener (state'.solution vars) env value with
      | mk signal answer =>
        obtain ⟨env', value'⟩ := answer
        cases signal with
        | abort => exact aborted state' env' value' hsound' hview.symm hreply
        | «continue» => exact continued state' env' value' hsound' hview.symm hreply
    | error cause => exact failed cause
    | unfinished => exact unfinished

/-- A turn after which the search goes on was a step forward, or a step after which it went back. -/
theorem turn_going_cases {q : Progress α}
    (hturn : turn config index vars listener steps p = .going q) :
    p.state.advance config (index.matching p.environment.providers) steps = .proceed q.state ∨
      ∃ state, (p.state.advance config (index.matching p.environment.providers) steps =
            .backtrack state ∨
          p.state.advance config (index.matching p.environment.providers) steps =
            .solution state) ∧
        state.backtrack config steps = .resumed q.state := by
  have hretry : ∀ {r : Progress α}, retry config steps r = .going q →
      r.state.backtrack config steps = .resumed q.state := by
    rintro ⟨count, state, env, value⟩ hgoing
    rw [retry] at hgoing
    cases hback : state.backtrack config steps with
    | resumed state' =>
      simp only [hback] at hgoing
      cases hgoing
      rfl
    | exhausted | unfinished => simp [hback] at hgoing
  obtain ⟨count, state, env, value⟩ := p
  dsimp only
  rw [turn] at hturn
  split at hturn
  · cases hturn
  · cases hmove : state.advance config (index.matching env.providers) steps with
    | proceed state' =>
      simp only [hmove] at hturn
      cases hturn
      exact Or.inl rfl
    | backtrack state' =>
      simp only [hmove] at hturn
      exact Or.inr ⟨state', Or.inl rfl, hretry hturn⟩
    | solution state' =>
      simp only [hmove] at hturn
      refine Or.inr ⟨state', Or.inr rfl, ?_⟩
      cases hreply : listener (state'.solution vars) env value with
      | mk signal answer =>
        obtain ⟨env', value'⟩ := answer
        simp only [hreply] at hturn
        cases signal with
        | abort => cases hturn
        | «continue» => exact hretry hturn
    | error | unfinished => simp [hmove] at hturn

/-- What every turn keeps of a search under way holds when the run ends. -/
theorem run_keeps {I : Progress α → Prop} {K : Report α → Prop}
    (hlimit : ∀ p, I p → K ⟨.unfinished, p.environment, p.value⟩)
    (hgoing : ∀ steps p q, I p → turn config index vars listener steps p = .going q → I q)
    (hended : ∀ steps p report, I p →
      turn config index vars listener steps p = .ended report → K report)
    (h : I p) : K (run config index vars listener steps p) := by
  induction steps generalizing p with
  | zero => exact hlimit p h
  | succ steps ih =>
    rw [run]
    cases hnext : turn config index vars listener steps p with
    | going q => exact ih (hgoing steps p q h hnext)
    | ended report => exact hended steps p report h hnext

end Search

end ClauseResolution
