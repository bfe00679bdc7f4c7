import ClauseResolution.Proofs.Engine.Completeness
import ClauseResolution.Proofs.Search.Pruning

/-!
# Clauses for other predicates are not observed

Whether a provider answers with clauses for the predicate that is asked for only, or with clauses
for other predicates among them, makes no difference to whoever receives the solutions. The one
search is the other one, pruned, after every turn. Both have the same store and the same context,
so the solutions are the same to the stamp; the predicates are called in the same order, so the
same bounds are met. All that is asked of the listener is that it does not look at the providers
itself, though it may change them.
-/

namespace ClauseResolution

/-- Each provider that is registered gives, in the second environment, its clauses for the
predicate that is asked for only. -/
structure Environment.Narrows (index : ClauseIndex) (env env' : Environment) : Prop where
  /-- Both searches are asked to stop, or neither is. -/
  interrupted : env'.interrupted = env.interrupted
  /-- The clauses of each provider are those for the predicate, in the same order. -/
  clauses : ∀ registration ∈ index.registrations, ∀ key,
    env'.matching registration.provider key =
      clausesFor key (env.matching registration.provider key)

/-- So the candidates for a predicate are those with its indicator. -/
theorem Environment.Narrows.matching {index : ClauseIndex} {env env' : Environment}
    (h : env.Narrows index env') (key : String) :
    index.matching env'.providers key = clausesFor key (index.matching env.providers key) := by
  rw [ClauseIndex.matching_eq, ClauseIndex.matching_eq, clausesFor, List.filter_flatMap]
  refine List.flatMap_congr fun registration hregistration => ?_
  have hmem := Array.mem_toList_iff.1 (List.mem_of_mem_filter hregistration)
  exact h.clauses registration hmem key

/-- The provider that gives the clauses for the predicate that is asked for only. -/
def Provider.exact (provider : Provider) : Provider :=
  .external fun key => clausesFor key (provider.matching key)

/-- The environment in which every provider is exact. -/
def Environment.exact (env : Environment) : Environment :=
  { env with providers := env.providers.map Provider.exact }

/-- Making every provider exact narrows the environment. -/
theorem Environment.narrows_exact (index : ClauseIndex) (env : Environment) :
    env.Narrows index env.exact where
  interrupted := rfl
  clauses registration _ key := by
    rw [matching, matching, exact, Array.getElem?_map]
    cases env.providers[registration.provider]? <;> rfl

/-- Two listeners do the same in related environments. -/
structure Listener.Mirrors {α : Type} (R : Environment → Environment → Prop)
    (l l' : Listener α) : Prop where
  /-- Both go on, or both end the search. -/
  signal : ∀ s env env' value, R env env' → (l' s env' value).1 = (l s env value).1
  /-- They leave related environments. -/
  environment : ∀ s env env' value, R env env' → R (l s env value).2.1 (l' s env' value).2.1
  /-- Their own values stay the same. -/
  value : ∀ s env env' value, R env env' → (l' s env' value).2.2 = (l s env value).2.2

section Run

variable {α : Type} {R : Environment → Environment → Prop} {config : Config} {index : ClauseIndex}
  {vars : List Var} {steps : Nat} {l l' : Listener α} {p q : Progress α}

/-- Keeping the solutions as well, they still do the same. -/
theorem Listener.Mirrors.recording (h : l.Mirrors R l') : l.recording.Mirrors R l'.recording where
  signal s env env' value henv := h.signal s env env' value.2 henv
  environment s env env' value henv := h.environment s env env' value.2 henv
  value s env env' value henv := by
    obtain ⟨given, value⟩ := value
    exact congrArg (Prod.mk (given ++ [s])) (h.value s env env' value henv)

/-- The second of two searches under way is the first, pruned. -/
structure Progress.Prunes (R : Environment → Environment → Prop) (p q : Progress α) : Prop where
  /-- They found as many solutions. -/
  solutions : q.solutions = p.solutions
  /-- The state is pruned. -/
  state : q.state = p.state.pruned
  /-- The environments are related. -/
  environment : R p.environment q.environment
  /-- The values of the listeners are the same. -/
  value : q.value = p.value
  /-- The first search is sound. -/
  sound : p.state.Sound
  /-- The targets of its cuts are nested. -/
  nested : p.state.view.Nested

/-- Two reports tell of the same end. -/
structure Report.Prunes (R : Environment → Environment → Prop) (r r' : Report α) : Prop where
  /-- The ends are the same. -/
  ending : r'.ending = r.ending
  /-- The environments are related. -/
  environment : R r.environment r'.environment
  /-- The values of the listeners are the same. -/
  value : r'.value = r.value

/-- Two turns lead to the same, pruned in one. -/
def Turn.Prunes (R : Environment → Environment → Prop) : Turn α → Turn α → Prop
  | .going p, .going q => p.Prunes R q
  | .ended r, .ended r' => r.Prunes R r'
  | _, _ => False

namespace Search

/-- Going back keeps the second search pruned, or ends both. -/
theorem retry_prunes {count : Nat} {state : Search} {env env' : Environment} {value : α}
    (hsound : state.Sound) (hnested : Branch.AllNested state.view.branches) (henv : R env env') :
    (retry config steps ⟨count, state, env, value⟩).Prunes R
      (retry config steps ⟨count, state.pruned, env', value⟩) := by
  obtain ⟨hsound', hview⟩ := backtrack_view config steps hsound
  have hprunes : Resumption.Prunes (state.backtrack config steps)
      (state.pruned.backtrack config steps) :=
    pruned_backtrack hsound hnested fun _ _ => rfl
  rw [retry, retry]
  generalize state.backtrack config steps = back at hprunes hsound' hview
  generalize state.pruned.backtrack config steps = back' at hprunes
  cases hprunes with
  | resumed next =>
    exact ⟨rfl, rfl, henv, rfl, hsound', Exploration.backtrack_nested hnested hview.symm⟩
  | exhausted hinferences =>
    refine ⟨?_, henv, rfl⟩
    dsimp only
    rw [hinferences]
  | unfinished => exact ⟨rfl, henv, rfl⟩

/-- A turn keeps the second search pruned, or ends both. -/
theorem turn_prunes (hR : ∀ env env', R env env' → env.Narrows index env') (hl : l.Mirrors R l')
    (h : p.Prunes R q) :
    (turn config index vars l steps p).Prunes R (turn config index vars l' steps q) := by
  obtain ⟨count, state, env, value⟩ := p
  obtain ⟨count', state', env', value'⟩ := q
  obtain ⟨hcount, hstate, henv, hvalue, hsound, hnested⟩ := h
  dsimp only at hcount hstate henv hvalue hsound hnested
  subst hcount hstate hvalue
  have hnarrows := hR env env' henv
  have hclauses : index.matching env'.providers =
      fun key => clausesFor key (index.matching env.providers key) := funext hnarrows.matching
  rw [turn, turn]
  rw [hnarrows.interrupted]
  split
  · exact ⟨rfl, henv, rfl⟩
  · obtain ⟨hsound', hview⟩ := advance_view config (index.matching env.providers) steps hsound
    have hstage : Stage.Nested
        (state.view.advance config (index.matching env.providers) steps) :=
      Exploration.advance_nested hnested
    have hdescending : Frame.Descending state.choices.size state.continuation := by
      rw [← state.length_branches_view]
      exact hnested.continuation
    rw [hclauses, pruned_advance hdescending]
    rw [← hview] at hstage
    cases hmove : state.advance config (index.matching env.providers) steps with
    | proceed next =>
      rw [hmove] at hsound' hstage
      exact ⟨rfl, rfl, henv, rfl, hsound', hstage⟩
    | backtrack next =>
      rw [hmove] at hsound' hstage
      exact retry_prunes hsound' hstage henv
    | error cause => exact ⟨rfl, henv, rfl⟩
    | unfinished => exact ⟨rfl, henv, rfl⟩
    | solution next =>
      rw [hmove] at hsound' hstage
      have hsignal := hl.signal (next.solution vars) env env' value' henv
      have henv' := hl.environment (next.solution vars) env env' value' henv
      have hvalue := hl.value (next.solution vars) env env' value' henv
      have hsolution : next.pruned.solution vars = next.solution vars := rfl
      simp only [Move.pruned, hsolution]
      generalize l (next.solution vars) env value' = reply at hsignal henv' hvalue ⊢
      generalize l' (next.solution vars) env' value' = reply' at hsignal henv' hvalue ⊢
      obtain ⟨signal, after, kept⟩ := reply
      obtain ⟨signal', after', kept'⟩ := reply'
      obtain rfl := hsignal
      obtain rfl := hvalue
      cases signal' with
      | abort => exact ⟨rfl, henv', rfl⟩
      | «continue» => exact retry_prunes hsound' hstage henv'

/-- A run of the pruned search ends as the run of the search. -/
theorem run_prunes (hR : ∀ env env', R env env' → env.Narrows index env') (hl : l.Mirrors R l')
    (h : p.Prunes R q) :
    (run config index vars l steps p).Prunes R (run config index vars l' steps q) := by
  induction steps generalizing p q with
  | zero => exact ⟨rfl, h.environment, h.value⟩
  | succ steps ih =>
    have hturn : (turn config index vars l steps p).Prunes R
        (turn config index vars l' steps q) := turn_prunes hR hl h
    rw [run, run]
    cases hp : turn config index vars l steps p <;>
      cases hq : turn config index vars l' steps q <;>
      rw [hp, hq] at hturn <;> try exact hturn.elim
    · exact ih hturn
    · exact hturn

end Search

end Run

namespace Engine

/-- Clauses for other predicates are not observed. Take two engines with the same configuration
and the same registrations, where each registered provider of the second gives, for each
predicate, the clauses of the first for that predicate only, in the same order. For every goal,
every number of steps and listeners that do the same in both without looking at the providers,
the same solutions are delivered, to the stamp and the top of their contexts, and both searches
end in the same way, with the same counters or the same error. The listeners may change the
providers, as long as those of the second engine remain as described. -/
theorem solve_narrowed {α : Type} (engine : Engine) (narrow : Environment)
    {R : Environment → Environment → Prop}
    (hR : ∀ env env', R env env' → env.Narrows engine.index env')
    (hstart : R { engine.environment with interrupted := false }
      { narrow with interrupted := false })
    {listener listener' : Listener α} (hlistener : listener.Mirrors R listener') (goal : Term)
    (steps : Nat) (value : α) :
    { engine with environment := narrow }.delivered steps goal listener' value =
        engine.delivered steps goal listener value ∧
      ({ engine with environment := narrow }.solve steps goal listener' value).ending =
        (engine.solve steps goal listener value).ending ∧
      ({ engine with environment := narrow }.solve steps goal listener' value).value =
        (engine.solve steps goal listener value).value := by
  have hnested : (Search.start goal.normalize).view.Nested := by
    rw [Search.view_start]
    exact Exploration.nested_start goal.normalize
  have hsolve : ∀ {β : Type} {l l' : Listener β} (v : β), l.Mirrors R l' →
      (engine.solve steps goal l v).Prunes R
        ({ engine with environment := narrow }.solve steps goal l' v) := fun v hl =>
    Search.run_prunes hR hl ⟨rfl, rfl, hstart, rfl, Search.sound_start _, hnested⟩
  have hrun := hsolve value hlistener
  have hrecorded := hsolve ([], value) hlistener.recording
  exact ⟨congrArg Prod.fst hrecorded.value, hrun.ending, hrun.value⟩

/-- The small engine gives the fact and the rule for every predicate. For `p(Z)` it delivers the
same solution as the exact one, where no choice point is left by the fact, and ends alike. -/
theorem solve_narrowed_small :
    let goal : Term := .apply "p" [.var ⟨"Z", none⟩]
    let exact : Engine := { small with environment := small.environment.exact }
    exact.delivered 12 goal tally 0 = small.delivered 12 goal tally 0 ∧
      (small.solve 12 goal tally 0).ending = .finished ⟨1, 2, false⟩ ∧
      (small.solve 12 goal tally 0).value = 1 := by
  intro goal exact
  have hend : (exact.solve 12 goal tally 0).ending = .finished ⟨1, 2, false⟩ := by cbv
  have hcount : (exact.solve 12 goal tally 0).value = 1 := by cbv
  have hmirrors : tally.Mirrors (fun env env' => env.Narrows small.index env') tally :=
    ⟨fun _ _ _ _ _ => rfl, fun _ _ _ _ h => h, fun _ _ _ _ _ => rfl⟩
  obtain ⟨hdelivered, hending, hvalue⟩ := solve_narrowed small small.environment.exact
    (fun _ _ h => h)
    (Environment.narrows_exact small.index { small.environment with interrupted := false })
    hmirrors goal 12 0
  exact ⟨hdelivered, hending.symm.trans hend, hvalue.symm.trans hcount⟩

end Engine

end ClauseResolution
