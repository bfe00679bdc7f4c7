import ClauseResolution.Proofs.Engine.Completeness
import ClauseResolution.Proofs.Engine.Freshness
import ClauseResolution.Proofs.Search.Events
import ClauseResolution.Proofs.Search.Filled
import ClauseResolution.Proofs.Search.Reclaiming

/-!
# New variables for the anonymous one

The anonymous variable is never bound, so a term in which it stands matches several terms that do
not match each other. As long as no variable is bound to such a term, each occurrence is met once at
most, and a new variable in its place is bound there or remains free. Then a search goes on in the
same way with new variables for the occurrences: it finds as many solutions and ends alike. What is
bound is looked at in a search that reclaims nothing, where every binding that is made stays in the
store; whether the searches that are compared reclaim bindings does not matter.
-/

namespace ClauseResolution

/-- In the second environment the clauses have new variables for the anonymous one. -/
structure Environment.Fills (index : ClauseIndex) (env env' : Environment) : Prop where
  /-- Both searches are asked to stop, or neither is. -/
  interrupted : env'.interrupted = env.interrupted
  /-- The clauses of each predicate are the same otherwise, one by one. -/
  clauses : ∀ key, List.Forall₂ Clause.Fills (index.matching env.providers key)
    (index.matching env'.providers key)

/-- Two listeners do the same, whatever the solutions are. -/
structure Listener.IgnoresSolutions {α β : Type} (index : ClauseIndex) (R : α → β → Prop)
    (l : Listener α) (l' : Listener β) : Prop where
  /-- Both go on, or both end the search. -/
  signal : ∀ s s' env env' v w, env.Fills index env' → R v w → (l' s' env' w).1 = (l s env v).1
  /-- They leave the same clauses, with new variables on the second side. -/
  environment : ∀ s s' env env' v w, env.Fills index env' → R v w →
    (l s env v).2.1.Fills index (l' s' env' w).2.1
  /-- Their own values stay related. -/
  value : ∀ s s' env env' v w, env.Fills index env' → R v w → R (l s env v).2.2 (l' s' env' w).2.2

/-- An engine has the configuration of another one, and its clauses with new variables for the
anonymous one. -/
structure Engine.Fills (engine engine' : Engine) : Prop where
  /-- The configurations are the same. -/
  config : engine'.config = engine.config
  /-- The providers serve the same predicates. -/
  index : engine'.index = engine.index
  /-- The clauses of each predicate are the same otherwise, one by one. -/
  clauses : ∀ key, List.Forall₂ Clause.Fills (engine.clauses key) (engine'.clauses key)

/-- The terms to which a store binds variables. -/
def Store.terms (σ : Store) : List Term := σ.entries.toList.map fun b => b.value.term

/-- A store without anonymous variables in its terms has no blanks. -/
theorem Store.plain_of_terms {σ : Store} (h : ∀ t ∈ σ.terms, t.isAnonymousFree) : σ.Plain :=
  fun _ hb => h _ (List.mem_map_of_mem (Array.mem_toList_iff.2 hb))

namespace Search

/-- The store that going back leaves. -/
def Resumption.store? : Resumption → Option Store
  | .resumed state | .exhausted state => some state.store
  | .unfinished => none

section Turns

variable {α β : Type} (config : Config) (index : ClauseIndex) (vars : List Var)
  (listener : Listener α) (steps : Nat)

/-- The store that a turn leaves, unless the turn ends in an error or before it is done. -/
def turnStore? : Progress α → Option Store
  | ⟨_, state, env, value⟩ =>
    if env.interrupted then none
    else
      match state.advance config (index.matching env.providers) steps with
      | .proceed state => some state.store
      | .backtrack state => (state.backtrack config steps).store?
      | .solution state =>
        match (listener (state.solution vars) env value).1 with
        | .abort => some state.store
        | .continue => (state.backtrack config steps).store?
      | .error _ | .unfinished => none

/-- The terms to which variables are bound after some turn of a search. -/
def boundTerms : Nat → Progress α → List Term
  | 0, _ => []
  | steps + 1, p =>
    (turnStore? config index vars listener steps p).toList.flatMap Store.terms ++
      match turn config index vars listener steps p with
      | .going p => boundTerms steps p
      | .ended _ => []

end Turns

end Search

/-- The terms to which variables are bound when a goal is solved. -/
def Engine.boundTerms {α : Type} (engine : Engine) (steps : Nat) (goal : Term)
    (listener : Listener α) (value : α) : List Term :=
  Search.boundTerms engine.config engine.index goal.normalize.vars listener steps
    (engine.begin goal value)

section Turns

variable {α β : Type} {config : Config} {reclaim : Bool} {index : ClauseIndex}
  {vars vars' : List Var} {steps : Nat} {R : α → β → Prop} {l : Listener α} {l' : Listener β}
  {p : Progress α} {q : Progress β}

/-- A search under way is read as the other one. -/
structure Progress.ReadsAs (index : ClauseIndex) (R : α → β → Prop) (p : Progress α)
    (q : Progress β) : Prop where
  /-- They found as many solutions. -/
  solutions : q.solutions = p.solutions
  /-- The first search is sound. -/
  left : p.state.Sound
  /-- The second search is sound. -/
  right : q.state.Sound
  /-- What is left to be done is read as what is left in the other. -/
  state : p.state.view.ReadsAs q.state.view
  /-- The clauses of the second have new variables. -/
  environment : p.environment.Fills index q.environment
  /-- The values of the listeners are related. -/
  value : R p.value q.value

/-- If the first report tells of an end, the second one tells of the same, with related values. -/
def Report.ReadsAs (R : α → β → Prop) (r : Report α) (r' : Report β) : Prop :=
  r.ending ≠ .unfinished → r'.ending = r.ending ∧ R r.value r'.value

/-- Two turns lead to searches that are read as each other or to the same end, unless the first
one does not come to its end. -/
def Turn.ReadsAs (index : ClauseIndex) (R : α → β → Prop) : Turn α → Turn β → Prop
  | .going p, .going q => p.ReadsAs index R q
  | .going _, .ended _ => False
  | .ended r, .going _ => r.ending = .unfinished
  | .ended r, .ended r' => r.ReadsAs R r'

/-- A turn that does not come to its end is read as any other. -/
theorem Turn.ReadsAs.of_unfinished {r : Report α} (h : r.ending = .unfinished) (turn : Turn β) :
    (Turn.ended r).ReadsAs index R turn := by
  cases turn with
  | going => exact h
  | ended => exact fun hends => absurd h hends

namespace Search

/-- Going back to a store without blanks leaves no blanks. -/
theorem Resumption.plain_of_store? {back : Resumption}
    (h : ∀ σ ∈ back.store?, σ.Plain) : back.Plain := by
  cases back with
  | resumed state | exhausted state => exact h _ rfl
  | unfinished => trivial

/-- When going back is not finished, neither is the search. -/
theorem retry_of_unfinished {count : Nat} {s : Search} {env : Environment} {v : α}
    (h : s.backtrack config steps = .unfinished) :
    retry config steps ⟨count, s, env, v⟩ = .ended ⟨.unfinished, env, v⟩ := by
  rw [retry, h]

/-- Going back on both leads to searches that are read as each other, or to the same end. -/
theorem retry_readsAs {count : Nat} {s s' : Search} {env env' : Environment} {v : α} {w : β}
    (hsound : s.Sound) (hsound' : s'.Sound) (h : s.view.ReadsAs s'.view)
    (henv : env.Fills index env') (hvalue : R v w)
    (hplain : (s.backtrack (config.reclaiming false) steps).Plain) :
    (retry (config.reclaiming false) steps ⟨count, s, env, v⟩).ReadsAs index R
      (retry (config.reclaiming reclaim) steps ⟨count, s', env', w⟩) := by
  have hinferences : s'.inferences = s.inferences := h.inferences
  have hback := backtrack_readsAs hsound h.branches rfl hplain
  obtain ⟨hnext, _⟩ := backtrack_view (config.reclaiming false) steps hsound
  obtain ⟨hnext', hview'⟩ := backtrack_view (config.reclaiming reclaim) steps hsound'
  rw [Exploration.backtrack_reclaiming, hinferences] at hview'
  rw [Exploration.backtrack_reclaiming, ← hview'] at hback
  rw [retry, retry]
  cases hl : s.backtrack (config.reclaiming false) steps <;>
    cases hr : s'.backtrack (config.reclaiming reclaim) steps <;>
    rw [hl] at hnext <;> rw [hr] at hnext' <;> rw [hl, hr] at hback <;> try exact hback.elim
  case resumed.resumed next next' => exact ⟨rfl, hnext, hnext', hback, henv, hvalue⟩
  case exhausted.exhausted last last' =>
    have hcount : last'.inferences = last.inferences := hback
    refine fun _ => ⟨?_, hvalue⟩
    dsimp only
    rw [hcount]
  all_goals exact .of_unfinished rfl _

/-- A turn on both leads to searches that are read as each other, or to the same end. -/
theorem turn_readsAs (hl : l.IgnoresSolutions index R l') (h : p.ReadsAs index R q)
    (hplain : ∀ σ ∈ turnStore? (config.reclaiming false) index vars l steps p, σ.Plain) :
    (turn (config.reclaiming false) index vars l steps p).ReadsAs index R
      (turn (config.reclaiming reclaim) index vars' l' steps q) := by
  obtain ⟨count, s, env, v⟩ := p
  obtain ⟨count', s', env', w⟩ := q
  obtain ⟨rfl, hsound, hsound', hview, henv, hvalue⟩ := h
  dsimp only at hsound hsound' hview henv hvalue
  have hstage : (s.advance (config.reclaiming false) (index.matching env.providers) steps).Plain →
      Stage.ReadsAs
        (s.advance (config.reclaiming false) (index.matching env.providers) steps).view
        (s'.view.advance (config.reclaiming false) (index.matching env'.providers) steps) :=
    advance_readsAs hsound hview rfl henv.clauses
  obtain ⟨hnext, _⟩ :=
    advance_view (config.reclaiming false) (index.matching env.providers) steps hsound
  obtain ⟨hnext', hview'⟩ :=
    advance_view (config.reclaiming reclaim) (index.matching env'.providers) steps hsound'
  rw [Exploration.advance_reclaiming] at hview'
  rw [Exploration.advance_reclaiming, ← hview'] at hstage
  rw [turnStore?] at hplain
  rw [turn, turn, henv.interrupted]
  split
  · exact fun _ => ⟨rfl, hvalue⟩
  next hrunning =>
  rw [if_neg hrunning] at hplain
  cases hmove : s.advance (config.reclaiming false) (index.matching env.providers) steps with
  | unfinished => exact .of_unfinished rfl _
  | error cause =>
    rw [hmove] at hstage
    have hends := hstage trivial
    generalize s'.advance (config.reclaiming reclaim) (index.matching env'.providers) steps = move'
      at hends hnext' ⊢
    cases move' <;> try exact hends.elim
    obtain rfl := hends
    exact fun _ => ⟨rfl, hvalue⟩
  | proceed next =>
    rw [hmove] at hstage hplain hnext
    have hproceeds := hstage (hplain _ rfl)
    generalize s'.advance (config.reclaiming reclaim) (index.matching env'.providers) steps = move'
      at hproceeds hnext' ⊢
    cases move' <;> try exact hproceeds.elim
    exact ⟨rfl, hnext, hnext', hproceeds, henv, hvalue⟩
  | backtrack next =>
    rw [hmove] at hstage hplain hnext
    have hback : (next.backtrack (config.reclaiming false) steps).Plain :=
      Resumption.plain_of_store? hplain
    by_cases hends : next.backtrack (config.reclaiming false) steps = .unfinished
    · dsimp only
      rw [retry_of_unfinished hends]
      exact .of_unfinished rfl _
    have hgoes := hstage (store_plain_of_backtrack hnext rfl hback hends)
    generalize s'.advance (config.reclaiming reclaim) (index.matching env'.providers) steps = move'
      at hgoes hnext' ⊢
    cases move' <;> try exact hgoes.elim
    exact retry_readsAs hnext hnext' hgoes henv hvalue hback
  | solution next =>
    rw [hmove] at hplain
    obtain ⟨hdone, rfl⟩ := advance_eq_solution hmove
    have hdone' : s'.continuation = [] := by
      obtain ⟨⟨r, _, hframes⟩, _⟩ := hview
      exact List.map_eq_nil_iff.1 (hframes.symm.trans hdone)
    rw [advance_of_done hdone']
    have hinferences : s'.inferences = next.inferences := hview.inferences
    have hsignal := hl.signal (next.solution vars) (s'.solution vars') env env' v w henv hvalue
    have henv' := hl.environment (next.solution vars) (s'.solution vars') env env' v w henv hvalue
    have hvalue' := hl.value (next.solution vars) (s'.solution vars') env env' v w henv hvalue
    dsimp only at hplain ⊢
    generalize l (next.solution vars) env v = reply at hplain hsignal henv' hvalue' ⊢
    generalize l' (s'.solution vars') env' w = reply' at hsignal henv' hvalue' ⊢
    obtain ⟨signal, after, kept⟩ := reply
    obtain ⟨signal', after', kept'⟩ := reply'
    obtain rfl := hsignal
    cases signal' with
    | abort =>
      refine fun _ => ⟨?_, hvalue'⟩
      dsimp only
      rw [hinferences]
    | «continue» =>
      exact retry_readsAs hsound hsound' hview henv' hvalue' (Resumption.plain_of_store? hplain)

/-- Runs come to the same end, if the first one comes to its end. -/
theorem run_readsAs (hl : l.IgnoresSolutions index R l') (h : p.ReadsAs index R q)
    (hbound : ∀ t ∈ boundTerms (config.reclaiming false) index vars l steps p, t.isAnonymousFree) :
    (run (config.reclaiming false) index vars l steps p).ReadsAs R
      (run (config.reclaiming reclaim) index vars' l' steps q) := by
  induction steps generalizing p q with
  | zero => exact fun hends => absurd rfl hends
  | succ steps ih =>
    rw [boundTerms] at hbound
    obtain ⟨hnow, hlater⟩ := List.forall_mem_append.1 hbound
    have hturn : (turn (config.reclaiming false) index vars l steps p).ReadsAs index R
        (turn (config.reclaiming reclaim) index vars' l' steps q) := by
      refine turn_readsAs hl h fun σ hσ => Store.plain_of_terms fun t ht => hnow t ?_
      exact List.mem_flatMap.2 ⟨σ, Option.mem_toList.2 hσ, ht⟩
    rw [run, run]
    generalize turn (config.reclaiming false) index vars l steps p = next at hturn hlater ⊢
    generalize turn (config.reclaiming reclaim) index vars' l' steps q = next' at hturn ⊢
    cases next with
    | going p' =>
      cases next' with
      | going q' => exact ih hturn hlater
      | ended r' => exact hturn.elim
    | ended r =>
      cases next' with
      | going q' => exact fun hends => absurd hturn hends
      | ended r' => exact hturn

end Search

end Turns

namespace Engine

variable {α β : Type} {engine engine' : Engine}

/-- A new variable may be put in the place of each occurrence of the anonymous one in the clauses
and in the goal: for each of them another one, which occurs nowhere else. Take two listeners that do
the same whatever the solutions are, and a search that comes to its end. If no variable is ever
bound to a term in which the anonymous variable stands, not even by a unification that fails in the
end, then the search with the new variables ends in the same way, with as many solutions, as many
predicate calls or the same error, and the values of the listeners stay related. -/
theorem solve_filled (h : engine.Fills engine') {news : List String} {goal goal' : Term}
    (hgoal : ClauseResolution.Fills news [goal] [goal']) {R : α → β → Prop} {listener : Listener α}
    {listener' : Listener β} (hlistener : listener.IgnoresSolutions engine.index R listener')
    (hsteady : listener.Steady) {value : α} {value' : β} (hvalue : R value value') {steps : Nat}
    (hbound : ∀ t ∈ (engine.reclaiming false).boundTerms steps goal listener value,
      t.isAnonymousFree)
    (hends : (engine.solve steps goal listener value).ending ≠ .unfinished) :
    (engine'.solve steps goal' listener' value').ending =
        (engine.solve steps goal listener value).ending ∧
      R (engine.solve steps goal listener value).value
        (engine'.solve steps goal' listener' value').value := by
  obtain ⟨hconfig, hindex, hclauses⟩ := h
  have hbegin : ((engine.reclaiming false).begin goal value).ReadsAs engine.index R
      (engine'.begin goal' value') := by
    refine ⟨rfl, Search.sound_start _, Search.sound_start _, ?_, ⟨rfl, fun key => ?_⟩, hvalue⟩
    · change (Search.start goal.normalize).view.ReadsAs (Search.start goal'.normalize).view
      rw [Search.view_start, Search.view_start]
      exact Exploration.start_readsAs hgoal
    have hkey := hclauses key
    rwa [clauses, clauses, hindex] at hkey
  have hsame : engine.solve steps goal listener value =
      (engine.reclaiming false).solve steps goal listener value :=
    (engine.solve_matches hsteady.matches_self goal steps engine.config.reclaimBindings false
      (Eq.refl value)).eq
  have hsolve : engine'.solve steps goal' listener' value' =
      Search.run (engine.config.reclaiming engine.config.reclaimBindings) engine.index
        goal'.normalize.vars listener' steps (engine'.begin goal' value') := by
    rw [← hindex]
    change _ = Search.run engine.config _ _ _ _ _
    rw [← hconfig]
    rfl
  rw [hsame] at hends ⊢
  rw [hsolve]
  exact Search.run_readsAs hlistener hbegin hbound hends

/-- Counting does not depend on the solutions. -/
theorem tally_ignoresSolutions (index : ClauseIndex) : tally.IgnoresSolutions index Eq tally where
  signal _ _ _ _ _ _ _ _ := rfl
  environment _ _ _ _ _ _ henv _ := henv
  value _ _ _ _ _ _ _ hcount := congrArg (· + 1) hcount

/-- The rule `parent(P, C) :- P = a, C = b ; P = b, C = c`. -/
def parents : Clause :=
  ⟨⟨"parent", [.var ⟨"P", some 0⟩, .var ⟨"C", some 1⟩], 2⟩,
    .compound ";"
      [.compound "," [.compound "=" [.var ⟨"P", some 0⟩, .atom "a"] 1,
        .compound "=" [.var ⟨"C", some 1⟩, .atom "b"] 1] 2,
      .compound "," [.compound "=" [.var ⟨"P", some 0⟩, .atom "b"] 1,
        .compound "=" [.var ⟨"C", some 1⟩, .atom "c"] 1] 2] 2, ["P", "C"], 0⟩

/-- The rule `father(X) :- parent(X, _)`. -/
def fathers : Clause :=
  ⟨⟨"father", [.var ⟨"X", some 0⟩], 1⟩,
    .compound "parent" [.var ⟨"X", some 0⟩, .var ⟨"_", none⟩] 1, ["X"], 1⟩

/-- The rule `father(X) :- parent(X, Y)`. -/
def fathersNamed : Clause :=
  ⟨⟨"father", [.var ⟨"X", some 0⟩], 1⟩,
    .compound "parent" [.var ⟨"X", some 0⟩, .var ⟨"Y", some 1⟩] 2, ["X", "Y"], 1⟩

/-- An engine with a rule for `father` and the rule for `parent`. -/
def family (rule : Clause) : Engine :=
  { Engine.ofConfig {} with
    environment := ⟨#[.external fun key => if key = "father/1" then [rule] else [parents]], false,
      2⟩ }

/-- The goal `father(X), parent(V, X)`, with a variable of the given name for `V`. -/
def raised (v : String) : Term :=
  .apply "," [.apply "father" [.var ⟨"X", none⟩],
    .apply "parent" [.var ⟨v, none⟩, .var ⟨"X", none⟩]]

/-- The clauses for `father` are the rule, and those for other predicates the rule for `parent`. -/
theorem clauses_family (rule : Clause) (key : String) :
    (family rule).clauses key = if key = "father/1" then [rule] else [parents] := by
  simp [family, clauses, matching_ofConfig, theoryNumber, databaseNumber, Provider.matching]

/-- The family with `Y` for `_` in the rule. -/
theorem fills_family : (family fathers).Fills (family fathersNamed) := by
  have hparents : Clause.Fills parents parents := by
    let head : Term := .apply "parent" [.var ⟨"P", none⟩, .var ⟨"C", none⟩]
    let body : Term := .apply ";"
      [.apply "," [.apply "=" [.var ⟨"P", none⟩, .atom "a"],
        .apply "=" [.var ⟨"C", none⟩, .atom "b"]],
      .apply "," [.apply "=" [.var ⟨"P", none⟩, .atom "b"],
        .apply "=" [.var ⟨"C", none⟩, .atom "c"]]]
    refine ⟨0, [], head, body, head, body, ⟨?_, ?_, ?_⟩, ?_, ?_⟩
    · cbv
    · decide +kernel
    · decide +kernel
    · cbv
    · cbv
  have hfathers : Clause.Fills fathers fathersNamed := by
    refine ⟨1, ["Y"], .apply "father" [.var ⟨"X", none⟩],
      .apply "parent" [.var ⟨"X", none⟩, .var ⟨"_", none⟩], .apply "father" [.var ⟨"X", none⟩],
      .apply "parent" [.var ⟨"X", none⟩, .var ⟨"Y", none⟩], ⟨?_, ?_, ?_⟩, ?_, ?_⟩
    · cbv
    · decide +kernel
    · decide +kernel
    · cbv
    · cbv
  refine ⟨rfl, rfl, fun key => ?_⟩
  rw [clauses_family, clauses_family]
  split
  · exact .cons hfathers .nil
  · exact .cons hparents .nil

/-- The goal `father(X), parent(_, X)` among the rule `father(X) :- parent(X, _)` and the goal
`father(X), parent(Z, X)` among the rule `father(X) :- parent(X, Y)`. -/
theorem solve_filled_family :
    (family fathers).Fills (family fathersNamed) ∧
      ClauseResolution.Fills ["Z"] [raised "_"] [raised "Z"] ∧
      (∀ t ∈ ((family fathers).reclaiming false).boundTerms 40 (raised "_") tally 0,
        t.isAnonymousFree) ∧
      ((family fathersNamed).solve 40 (raised "Z") tally 0).ending = .finished ⟨1, 4, false⟩ ∧
      ((family fathersNamed).solve 40 (raised "Z") tally 0).value = 1 := by
  have hending : ((family fathers).solve 40 (raised "_") tally 0).ending =
      .finished ⟨1, 4, false⟩ := by cbv
  have hcount : ((family fathers).solve 40 (raised "_") tally 0).value = 1 := by cbv
  have hbound : ∀ t ∈ ((family fathers).reclaiming false).boundTerms 40 (raised "_") tally 0,
      t.isAnonymousFree := by
    rw [← List.all_eq_true]
    cbv
  have hraised : ClauseResolution.Fills ["Z"] [raised "_"] [raised "Z"] := by
    refine ⟨?_, ?_, ?_⟩
    · with_unfolding_all rfl
    · decide +kernel
    · decide +kernel
  have hsteady : Listener.Steady tally := fun _ _ _ _ _ => rfl
  obtain ⟨hends, hvalue⟩ := solve_filled fills_family hraised (tally_ignoresSolutions _) hsteady rfl
    hbound (by rw [hending]; exact Ending.noConfusion)
  exact ⟨fills_family, hraised, hbound, hends.trans hending, hvalue.symm.trans hcount⟩

/-- The goal `X = f(V), X = f(a), X = f(b)`, with a variable of the given name for `V`. -/
def twofold (v : String) : Term :=
  .apply "," [.apply "=" [.var ⟨"X", none⟩, .apply "f" [.var ⟨v, none⟩]],
    .apply "," [.apply "=" [.var ⟨"X", none⟩, .apply "f" [.atom "a"]],
      .apply "=" [.var ⟨"X", none⟩, .apply "f" [.atom "b"]]]]

/-- Where a variable is bound to `f(_)`, the search has a solution and the search with a new
variable for `_` has none. -/
theorem twofold_solutions_differ :
    (ofConfig {}).Fills (ofConfig {}) ∧
      ClauseResolution.Fills ["N"] [twofold "_"] [twofold "N"] ∧
      ((ofConfig {}).solve 20 (twofold "_") tally 0).ending = .finished ⟨1, 0, false⟩ ∧
      ((ofConfig {}).solve 20 (twofold "N") tally 0).ending = .finished ⟨0, 0, false⟩ := by
  refine ⟨⟨rfl, rfl, fun key => ?_⟩, ⟨?_, ?_, ?_⟩, ?_, ?_⟩
  · rw [clauses_ofConfig]
    exact .nil
  · cbv
  · decide +kernel
  · decide +kernel
  · cbv
  · cbv

end Engine

end ClauseResolution
