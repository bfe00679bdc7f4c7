import ClauseResolution.Proofs.Database.Routing
import ClauseResolution.Proofs.Engine.Turn
import ClauseResolution.Proofs.Search.Justification
import ClauseResolution.Proofs.Search.Reclaiming

/-!
# Solutions are derivable

A search with the occurs check is justified at every turn, so the query has a derivation
under the substitution of each solution that is delivered. The clauses may change while
the search runs, as long as they are those of one program.
-/

namespace ClauseResolution

/-- All clauses the providers have for any predicate are those of a program. -/
def ClauseIndex.Within (index : ClauseIndex) (providers : Array Provider)
    (program : Set Clause) : Prop :=
  ∀ key, ∀ clause ∈ index.matching providers key, clause ∈ program

/-- The query with the values of the solution in the place of variables is derivable. -/
def Solution.Derives (program : Set Clause) (query : Term) (solution : Solution) : Prop :=
  ∃ t, solution.reify query = some t ∧ Derivable program t

/-- The listener keeps a property of the environment and of its value when it is given a
solution that derives the query. -/
def Listener.Keeps {α : Type} (program : Set Clause) (query : Term) (P : Environment → α → Prop)
    (listener : Listener α) : Prop :=
  ∀ solution env value, solution.Derives program query → P env value →
    P (listener solution env value).2.1 (listener solution env value).2.2

section Run

variable {α : Type} {program : Set Clause} {query : Term} {config : Config} {index : ClauseIndex}
  {vars : List Var} {steps : Nat} {listener : Listener α} {P : Environment → α → Prop}

/-- A search under way is justified, and a property holds of its environment and of the
value of the listener. -/
structure Progress.Justified (program : Set Clause) (query : Term) (P : Environment → α → Prop)
    (p : Progress α) : Prop where
  /-- The search is sound. -/
  sound : p.state.Sound
  /-- What remains is all that the query lacks. -/
  view : p.state.view.Justified program query
  /-- The property holds. -/
  kept : P p.environment p.value

/-- A turn ends with the property or goes on with it. -/
def Turn.Justified (program : Set Clause) (query : Term) (P : Environment → α → Prop) :
    Turn α → Prop
  | .going p => p.Justified program query P
  | .ended report => P report.environment report.value

/-- At a sound state without goals the query is derivable. -/
theorem Search.derives_of_reduces {state : Search}
    (h : Reduces program query state.view.substitution []) (vars : List Var) :
    (state.solution vars).Derives program query := by
  refine ⟨_, Store.reify_eq_solution h.regular.acyclic query, ?_⟩
  exact h.derivable _ h.regular.solution_NaNFree h.regular.solution_satisfies (by simp)

/-- Going back keeps a search justified. -/
theorem Search.retry_justified (hcheck : config.occursCheck = true)
    (hprogram : ∀ clause ∈ program, clause.Numbered) {p : Progress α} (hsound : p.state.Sound)
    (hbranches : ∀ branch ∈ p.state.view.branches, branch.Justified program query)
    (hkept : P p.environment p.value) :
    (retry config steps p).Justified program query P := by
  refine retry_cases hsound (fun state hstate hback => ?_) (fun _ _ => hkept) hkept
  exact ⟨hstate, Exploration.backtrack_justified hcheck hprogram hbranches hback, hkept⟩

/-- A turn keeps a search justified. -/
theorem Search.turn_justified (hcheck : config.occursCheck = true)
    (hprogram : ∀ clause ∈ program, clause.Numbered)
    (hlistener : listener.Keeps program query P)
    (hP : ∀ env value, P env value → index.Within env.providers program) {p : Progress α}
    (h : p.Justified program query P) :
    (turn config index vars listener steps p).Justified program query P := by
  obtain ⟨hsound, hview, hkept⟩ := h
  have hstage : Stage.Justified program query
      (p.state.view.advance config (index.matching p.environment.providers) steps) :=
    Exploration.advance_justified hcheck hprogram (hP _ _ hkept) hview
  refine turn_cases hsound (fun _ => hkept) hkept ?proceed ?backtrack ?aborted ?continued
  case proceed =>
    intro state hstate hmove
    rw [hmove] at hstage
    exact ⟨hstate, hstage, hkept⟩
  case backtrack =>
    intro state hstate hmove
    rw [hmove] at hstage
    exact retry_justified hcheck hprogram hstate hstage hkept
  case aborted =>
    intro state env value hstate hmove hreply
    rw [hmove] at hstage
    have hkept' := hlistener _ _ _ (derives_of_reduces hstage.1 vars) hkept
    rwa [hreply] at hkept'
  case continued =>
    intro state env value hstate hmove hreply
    rw [hmove] at hstage
    have hkept' := hlistener _ _ _ (derives_of_reduces hstage.1 vars) hkept
    rw [hreply] at hkept'
    exact retry_justified hcheck hprogram hstate hstage.2 hkept'

/-- A whole run keeps the property. -/
theorem Search.run_justified (hcheck : config.occursCheck = true)
    (hprogram : ∀ clause ∈ program, clause.Numbered)
    (hlistener : listener.Keeps program query P)
    (hP : ∀ env value, P env value → index.Within env.providers program) {p : Progress α}
    (h : p.Justified program query P) :
    P (run config index vars listener steps p).environment
      (run config index vars listener steps p).value := by
  have hturn : ∀ steps (q : Progress α), q.Justified program query P →
      (turn config index vars listener steps q).Justified program query P :=
    fun _ _ => turn_justified hcheck hprogram hlistener hP
  refine run_keeps (K := fun report => P report.environment report.value)
    (fun q hq => hq.kept) (fun steps q q' hq hnext => ?_)
    (fun steps q report hq hnext => ?_) h
  · have hafter := hturn steps q hq
    rwa [hnext] at hafter
  · have hafter := hturn steps q hq
    rwa [hnext] at hafter

end Run

namespace Engine

/-- Resolution is sound. With the occurs check, for a goal and a program without anonymous
variables and without numbers that are not numbers, the goal with the values of any
solution that is delivered is derivable from the program. The listener may change the
clauses, as long as they stay those of the program. -/
theorem delivered_derivable {α : Type} (engine : Engine) (program : Set Clause) (goal : Term)
    (listener : Listener α) (hcheck : engine.config.occursCheck = true) (hgoal : goal.isClean)
    (hprogram : ∀ clause ∈ program, clause.IsClean)
    (hengine : engine.index.Within engine.environment.providers program)
    (hlistener : ∀ solution env value, engine.index.Within env.providers program →
      engine.index.Within (listener solution env value).2.1.providers program)
    (steps : Nat) (value : α) :
    ∀ solution ∈ engine.delivered steps goal listener value,
      ∃ t, solution.reify goal.normalize.term = some t ∧ Derivable program t := by
  let kept (env : Environment) (record : List Solution × α) : Prop :=
    engine.index.Within env.providers program ∧
      ∀ solution ∈ record.1, solution.Derives program goal.normalize.term
  have hkeeps : listener.recording.Keeps program goal.normalize.term kept := by
    rintro solution env ⟨given, value⟩ hderives ⟨hwithin, hgiven⟩
    refine ⟨hlistener solution env value hwithin, List.forall_mem_append.2 ⟨hgiven, ?_⟩⟩
    exact List.forall_mem_singleton.2 hderives
  have hstart : Progress.Justified program goal.normalize.term kept
      ⟨0, Search.start goal.normalize, { engine.environment with interrupted := false },
        ([], value)⟩ := by
    refine ⟨Search.sound_start _, ?_, hengine, by simp⟩
    rw [Search.view_start]
    exact Exploration.start_justified hgoal
  have hnumbered : ∀ clause ∈ program, clause.Numbered := fun clause hclause =>
    (hprogram clause hclause).numbered
  have hend : kept (engine.solve steps goal listener.recording ([], value)).environment
      (engine.solve steps goal listener.recording ([], value)).value :=
    Search.run_justified hcheck hnumbered hkeeps (fun _ _ h => h.1) hstart
  exact hend.2

/-- The fact `q(a)`. -/
def fact : Clause := ⟨⟨"q", [.atom "a"], 0⟩, .atom "true", [], 0⟩

/-- The rule `p(X) :- q(X)`. -/
def chained : Clause :=
  ⟨⟨"p", [.var ⟨"X", some 0⟩], 1⟩, .compound "q" [.var ⟨"X", some 0⟩] 1, ["X"], 1⟩

/-- An engine with a fact and a rule. -/
def small : Engine := offering { occursCheck := true } [fact, chained]

/-- The clauses of the small engine. -/
theorem mem_small {key : String} {clause : Clause} :
    clause ∈ small.index.matching small.environment.providers key ↔
      clause = fact ∨ clause = chained := by
  rw [← Engine.clauses, small, clauses_offering, List.mem_pair]

/-- They are made from terms without anonymous variables. -/
theorem isClean_small {clause : Clause} (h : clause = fact ∨ clause = chained) :
    clause.IsClean := by
  rcases h with rfl | rfl
  · exact ⟨0, .apply "q" [.atom "a"], .atom "true", by decide, by decide, by with_unfolding_all rfl⟩
  · exact ⟨1, .apply "p" [.var ⟨"X", none⟩], .apply "q" [.var ⟨"X", none⟩], by decide, by decide,
      by with_unfolding_all rfl⟩

/-- The solution of `p(Z)` by the rule and the fact is derivable. -/
theorem delivered_derivable_rule :
    (small.delivered 8 (.apply "p" [.var ⟨"Z", none⟩]) first ()).length = 1 ∧
      ∀ solution ∈ small.delivered 8 (.apply "p" [.var ⟨"Z", none⟩]) first (),
        ∃ t, solution.reify (Term.apply "p" [.var ⟨"Z", none⟩]).normalize.term = some t ∧
          Derivable {clause | clause = fact ∨ clause = chained} t := by
  refine ⟨by cbv, delivered_derivable small {clause | clause = fact ∨ clause = chained} _ first rfl
    (by decide) ?_ ?_ (fun _ _ _ h => h) 8 ()⟩
  · rintro clause (rfl | rfl)
    · exact ⟨0, .apply "q" [.atom "a"], .atom "true", by decide, by decide,
        by with_unfolding_all rfl⟩
    · exact ⟨1, .apply "p" [.var ⟨"X", none⟩], .apply "q" [.var ⟨"X", none⟩], by decide, by decide,
        by with_unfolding_all rfl⟩
  · intro key clause hclause
    exact mem_small.1 hclause

end Engine

end ClauseResolution
