import ClauseResolution.Proofs.Engine.Freshness
import ClauseResolution.Proofs.Engine.Turn
import ClauseResolution.Proofs.Search.Granting
import ClauseResolution.Proofs.Search.Termination
import ClauseResolution.Proofs.Unification.Reached

/-!
# A bound on the calls bounds a run

With the occurs check every turn of a search ends when enough steps are granted, and a
bound on the number of calls leaves only finitely many turns, whatever the listener does to
the clauses. So the search comes to an end, with all solutions found, with the listener
ending it or with an error, and this end does not depend on how many steps are granted
beyond those that it takes. Within a turn the loops that follow variables and search for
one have no bound of their own; they end because no context that is reached is cyclic.
-/

namespace ClauseResolution

open Relation (ReflTransGen)

/-- What a unification with the occurs check passes through after slots were allocated: in
each step some pair of terms calls for a binding. -/
inductive Substitution.ComesTo (s : Substitution) : Substitution → Prop
  /-- Slots are allocated, for the clause whose head is unified. -/
  | allocate (count : Nat) : ComesTo s (s.allocate count)
  /-- A variable is bound. -/
  | bind {s' : Substitution} {layout : Layout} {entered : List (Occurrence × Occurrence)}
      {l r value : Occurrence} {v : Var} (h : ComesTo s s')
      (hstep : s'.pairStep layout true entered l r = .bind v value) : ComesTo s (s'.bind v value)

/-- On the way no substitution becomes cyclic. -/
theorem Substitution.ComesTo.acyclic {s s' : Substitution} (hcomes : s.ComesTo s')
    (h : s.Acyclic) : s'.Acyclic := by
  induction hcomes with
  | allocate count => exact h.allocate count
  | @bind s' layout entered l r value v _ hstep ih =>
    have htreats := s'.treats_pairStep layout true entered l r
    rw [hstep] at htreats
    exact htreats.acyclic_bind ih

/-- The loops that follow variables and search for one end in a context, and in all contexts
that a unification from there passes through, whatever store these are in. -/
def Store.LoopsEnd (σ : Store) (c : Context) : Prop :=
  ∀ (τ : Store) (d : Context), (σ.substitution c).ComesTo (τ.substitution d) →
    (∀ o : Occurrence, τ.Stops d o.term (τ.deref d o).term) ∧
      ∀ target t, τ.Searches d target [t] (τ.occurs d target t)

/-- In an acyclic context the loops end. -/
theorem Store.loopsEnd_of_acyclic {σ : Store} {c : Context} (h : (σ.substitution c).Acyclic) :
    σ.LoopsEnd c := by
  intro τ d hcomes
  have hacyclic := hcomes.acyclic h
  refine ⟨stops_deref hacyclic.settles, fun target t => ?_⟩
  have hsearches := searches_of_acyclic hacyclic target [t]
  rwa [List.any_cons, List.any_nil, Bool.or_false] at hsearches

/-- The loops end in the current context and in those that a search goes back to. -/
structure Search.LoopsEnd (state : Search) : Prop where
  /-- They end in the current context. -/
  current : state.store.LoopsEnd state.context
  /-- They end where the search goes back to. -/
  choices : ∀ point ∈ state.choices, state.store.LoopsEnd point.context

namespace Search

variable {α : Type} {config : Config} {index : ClauseIndex} {vars : List Var} {steps m : Nat}
  {listener : Listener α} {p : Progress α}

/-- Going back from a sound search ends when it does so in the view. -/
theorem ending_retry (hsound : p.state.Sound) (hm : m ≤ steps)
    (hback : Exploration.backtrack config m p.state.view.inferences p.state.view.branches ≠
      .unfinished) : (retry config steps p).ending? ≠ some .unfinished := by
  obtain ⟨count, state, env, value⟩ := p
  dsimp only at hsound hback
  obtain ⟨_, hview⟩ := backtrack_view config steps hsound
  have hmore := Exploration.backtrack_mono hm hback
  rw [retry]
  cases hresumption : state.backtrack config steps with
  | resumed last =>
    intro hending
    cases hending
  | exhausted last =>
    intro hending
    cases hending
  | unfinished =>
    rw [hresumption] at hview
    exact absurd (hmore.symm.trans hview.symm) hback

/-- A turn with the occurs check ends. -/
theorem exists_turn (hcheck : config.occursCheck = true) (index : ClauseIndex) (vars : List Var)
    (listener : Listener α) (hsound : p.state.Sound) (hacyclic : p.state.view.Acyclic) :
    ∃ steps, (turn config index vars listener steps p).ending? ≠ some .unfinished := by
  obtain ⟨count, state, env, value⟩ := p
  dsimp only at hsound hacyclic
  obtain ⟨k, hadvance⟩ := Exploration.exists_advance hcheck hacyclic (index.matching env.providers)
  have hstage : (state.view.advance config (index.matching env.providers) k).Acyclic :=
    Exploration.advance_acyclic hcheck hacyclic
  have hback : ∃ m, ∀ e : Exploration,
      (state.view.advance config (index.matching env.providers) k = .backtrack e ∨
        state.view.advance config (index.matching env.providers) k = .solution e) →
      Exploration.backtrack config m e.inferences e.branches ≠ .unfinished := by
    cases hnext : state.view.advance config (index.matching env.providers) k with
    | proceed | error | unfinished => exact ⟨0, by simp⟩
    | backtrack e | solution e =>
      rw [hnext] at hstage
      obtain ⟨m, hend⟩ := Exploration.exists_backtrack hcheck hstage.branches e.inferences
      refine ⟨m, fun e' he' => ?_⟩
      obtain rfl : e = e' := by simpa using he'
      exact hend
  obtain ⟨m, hback⟩ := hback
  refine ⟨max k m, ?_⟩
  obtain ⟨hsound', hview⟩ :=
    advance_view config (index.matching env.providers) (max k m) hsound
  rw [Exploration.advance_mono (le_max_left k m) hadvance] at hview
  rw [turn]
  split
  · intro hending
    cases hending
  · cases hmove : state.advance config (index.matching env.providers) (max k m) with
    | proceed | error =>
      intro hending
      cases hending
    | unfinished =>
      rw [hmove] at hview
      exact absurd hview.symm hadvance
    | backtrack last =>
      rw [hmove] at hsound' hview
      exact ending_retry hsound' (le_max_right k m) (hback last.view (Or.inl hview.symm))
    | solution last =>
      rw [hmove] at hsound' hview
      dsimp only
      cases listener (last.solution vars) env value with
      | mk signal answer =>
        cases signal with
        | abort =>
          intro hending
          cases hending
        | «continue» =>
          exact ending_retry hsound' (le_max_right k m) (hback last.view (Or.inr hview.symm))

/-- The state that is reached by going back is sound, and follows in the view. -/
theorem retry_going {q : Progress α} (hsound : p.state.Sound)
    (hretry : retry config steps p = .going q) :
    q.state.Sound ∧ Exploration.backtrack config steps p.state.view.inferences
      p.state.view.branches = .resumed q.state.view := by
  revert hretry
  refine retry_cases hsound ?_ ?_ ?_
  · rintro state hsound' hback ⟨rfl⟩
    exact ⟨hsound', hback⟩
  · intro inferences hback hgoing
    cases hgoing
  · intro hgoing
    cases hgoing

/-- The state after a turn is sound, and comes next in the view. -/
theorem turn_going {q : Progress α} (hsound : p.state.Sound)
    (hturn : turn config index vars listener steps p = .going q) :
    q.state.Sound ∧ Exploration.Next config p.state.view q.state.view := by
  revert hturn
  refine turn_cases hsound ?_ ?_ ?_ ?_ ?_ ?_
  · intro error hgoing
    cases hgoing
  · intro hgoing
    cases hgoing
  · rintro state hsound' hstep ⟨rfl⟩
    exact ⟨hsound', .proceed hstep⟩
  · intro state hsound' hstep hgoing
    obtain ⟨hlast, hback⟩ := retry_going hsound' hgoing
    exact ⟨hlast, .back (Or.inl hstep) hback⟩
  · intro state env value hsound' hstep hreply hgoing
    cases hgoing
  · intro state env value hsound' hstep hreply hgoing
    obtain ⟨hlast, hback⟩ := retry_going hsound' hgoing
    exact ⟨hlast, .back (Or.inr hstep) hback⟩

/-- A search with the occurs check that does not go on for ever ends. -/
theorem exists_run (hcheck : config.occursCheck = true) (index : ClauseIndex) (vars : List Var)
    (listener : Listener α) (hsound : p.state.Sound) (hacyclic : p.state.view.Acyclic)
    (hterminates : p.state.view.Terminates config) :
    ∃ steps, (run config index vars listener steps p).ending ≠ .unfinished := by
  generalize hview : p.state.view = e at hterminates
  induction hterminates generalizing p with
  | intro e _ ih =>
    subst hview
    obtain ⟨k, hturn⟩ := exists_turn hcheck index vars listener hsound hacyclic
    cases hnext : turn config index vars listener k p with
    | ended report =>
      rw [hnext] at hturn
      refine ⟨k + 1, ?_⟩
      rw [run, hnext]
      exact fun hending => hturn (congrArg some hending)
    | going q =>
      obtain ⟨hsound', hfollows⟩ := turn_going hsound hnext
      obtain ⟨m, hend⟩ := ih q.state.view hfollows hsound' (hfollows.acyclic hcheck hacyclic) rfl
      refine ⟨max k m + 1, ?_⟩
      rw [run, turn_mono (le_max_left k m) hturn, hnext]
      dsimp only
      rwa [run_mono (le_max_right k m) hend]

/-- Without cyclic substitutions the loops of a search end. -/
theorem loopsEnd_of_acyclic {state : Search} (h : state.view.Acyclic) : state.LoopsEnd where
  current := Store.loopsEnd_of_acyclic h.current
  choices point hpoint := by
    have hmem : point.branch state.store ∈ state.view.branches :=
      List.mem_map_of_mem (List.mem_reverse.2 (Array.mem_toList_iff.2 hpoint))
    exact Store.loopsEnd_of_acyclic (h.branches _ hmem)

/-- With the occurs check no search that is reached has a cyclic substitution. -/
theorem acyclic_of_follows {q : Progress α} (hcheck : config.occursCheck = true)
    (hsound : p.state.Sound) (hacyclic : p.state.view.Acyclic)
    (hreached : ReflTransGen (Follows config index vars listener) p q) :
    q.state.Sound ∧ q.state.view.Acyclic := by
  induction hreached with
  | refl => exact ⟨hsound, hacyclic⟩
  | tail _ hfollows ih =>
    obtain ⟨k, hturn⟩ := hfollows
    obtain ⟨hsound', hnext⟩ := turn_going ih.1 hturn
    exact ⟨hsound', hnext.acyclic hcheck ih.2⟩

end Search

namespace Engine

/-- A bound on the number of calls bounds a search with the occurs check. For all clauses, for
every goal and for every listener, which may change the clauses, the search ends when enough
steps are granted, and from then on its end is the same. In every state that it reaches the
loops that follow variables and search for one end, also in the middle of a unification. -/
theorem solve_terminates {α : Type} (engine : Engine) (goal : Term) (listener : Listener α)
    (value : α) (hcheck : engine.config.occursCheck = true) {n : Nat}
    (hlimit : engine.config.maxInferences = some n) :
    (∃ report : Report α, report.ending ≠ .unfinished ∧
      ∃ enough, ∀ steps ≥ enough, engine.solve steps goal listener value = report) ∧
    ∀ p, ReflTransGen (Search.Follows engine.config engine.index goal.normalize.vars listener)
      (engine.begin goal value) p → p.state.LoopsEnd := by
  have hacyclic : (Search.start goal.normalize).view.Acyclic := by
    rw [Search.view_start]
    exact Exploration.start_acyclic goal.normalize
  obtain ⟨enough, hend⟩ : ∃ steps, (engine.solve steps goal listener value).ending ≠ .unfinished :=
    Search.exists_run hcheck engine.index goal.normalize.vars listener
      (Search.sound_start goal.normalize) hacyclic (Exploration.terminates hcheck hlimit hacyclic)
  refine ⟨⟨_, hend, enough, fun steps hsteps => Search.run_mono hsteps hend⟩, fun p hreached => ?_⟩
  exact Search.loopsEnd_of_acyclic (Search.acyclic_of_follows hcheck
    (Search.sound_start goal.normalize) hacyclic hreached).2

/-- The clause `p :- p`. -/
def endless : Clause := ⟨⟨"p", [], 0⟩, .atom "p", [], 0⟩

/-- An engine with that clause and a bound of three calls. -/
def endlessEngine : Engine := offering { occursCheck := true, maxInferences := some 3 } [endless]

/-- The goal `p` runs into the bound. -/
theorem solve_terminates_endless :
    (∃ report : Report Unit, report.ending = .failed (.inferenceLimit 3) ∧
      ∃ enough, ∀ steps ≥ enough,
        endlessEngine.solve steps (.atom "p") first () = report) ∧
      (endlessEngine.begin (.atom "p") ()).state.LoopsEnd := by
  obtain ⟨⟨report, _, enough, hsame⟩, hloops⟩ :=
    solve_terminates endlessEngine (.atom "p") first () rfl (n := 3) rfl
  have hfailed : (endlessEngine.solve 8 (.atom "p") first ()).ending =
      .failed (.inferenceLimit 3) := by cbv
  have hmore : endlessEngine.solve (max enough 8) (.atom "p") first () =
      endlessEngine.solve 8 (.atom "p") first () :=
    Search.run_mono (le_max_right enough 8) (by
      intro hunfinished
      have hending := hfailed.symm.trans hunfinished
      cases hending)
  refine ⟨⟨report, ?_, enough, hsame⟩, hloops _ .refl⟩
  rw [← hsame (max enough 8) (le_max_left enough 8), hmore, hfailed]

end Engine

end ClauseResolution
