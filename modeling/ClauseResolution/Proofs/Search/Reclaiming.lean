import ClauseResolution.Engine.Solve
import ClauseResolution.Proofs.Search.View
import ClauseResolution.Proofs.Substitution.Reify

/-!
# Reclaiming bindings is not observed

Two searches that differ only in whether they drop the bindings of abandoned branches
have the same view after every turn. What a listener is given differs at most in stamps
and in the size of the store, so a listener that looks at neither treats both searches
alike. The searches then deliver the same solutions and end at the same turn in the same
way.
-/

namespace ClauseResolution

/-- The configuration with the given choice about reclaiming. -/
def Config.reclaiming (config : Config) (reclaim : Bool) : Config :=
  { config with reclaimBindings := reclaim }

/-- The engine with the given choice about reclaiming. -/
def Engine.reclaiming (engine : Engine) (reclaim : Bool) : Engine :=
  { engine with config := engine.config.reclaiming reclaim }

/-- Two solutions differ at most in the stamps of their contexts and in the stores. -/
structure Solution.Alike (a b : Solution) : Prop where
  /-- They belong to queries with the same variables. -/
  vars : a.vars = b.vars
  /-- The same slots are allocated. -/
  top : a.context.top = b.context.top
  /-- Every slot is bound to the same value, or free in both. -/
  valueAt : ∀ slot, a.store.valueAt a.context slot = b.store.valueAt b.context slot
  /-- Every variable stands for the same in the end. -/
  deref : ∀ o, a.store.deref a.context o = b.store.deref b.context o

namespace Solution.Alike

variable {a b : Solution}

/-- Solutions that are alike replace variables by the same values. -/
theorem reify_eq (h : a.Alike b) (t : Term) : a.reify t = b.reify t :=
  Store.reify_congr h.valueAt t

/-- Solutions that are alike give the same answer. -/
theorem answer?_eq (h : a.Alike b) : a.answer? = b.answer? := by
  have hfrom : ∀ vars answer slot,
      a.answerFrom answer slot vars = b.answerFrom answer slot vars := by
    intro vars
    induction vars with
    | nil => intro answer slot; rfl
    | cons v vars ih => intro answer slot; simp only [answerFrom, h.reify_eq, ih]
  rw [answer?, answer?, h.vars, hfrom]

end Solution.Alike

/-- The listener does not look at stamps and at the size of the store. -/
def Listener.Steady {α : Type} (listener : Listener α) : Prop :=
  ∀ a b env value, a.Alike b → listener a env value = listener b env value

/-- The listener that also keeps every solution it is given. -/
def Listener.recording {α : Type} (listener : Listener α) : Listener (List Solution × α) :=
  fun s env (given, value) =>
    let (signal, env, value) := listener s env value
    (signal, env, (given ++ [s], value))

/-- The solutions a search delivers to a listener within a number of steps, in order. -/
def Engine.delivered {α : Type} (engine : Engine) (steps : Nat) (goal : Term)
    (listener : Listener α) (value : α) : List Solution :=
  (engine.solve steps goal listener.recording ([], value)).value.1

section Reclaiming

variable (config : Config) (reclaim : Bool) (clausesOf : String → List Clause) (steps : Nat)

/-- Which clause matches first does not depend on reclaiming. -/
theorem Substitution.firstMatch_reclaiming (s : Substitution) (call : Call)
    (clauses : List Clause) :
    s.firstMatch (config.reclaiming reclaim) steps call clauses =
      s.firstMatch config steps call clauses := by
  induction clauses with
  | nil => rfl
  | cons clause clauses ih =>
    rw [firstMatch, firstMatch, ih]
    rfl

namespace Exploration

/-- Entering a clause does not depend on reclaiming in the view. -/
theorem enter_reclaiming (call : Call) (clauses : List Clause) (depth : Nat) (next : List Frame)
    (e : Exploration) :
    e.enter (config.reclaiming reclaim) steps call clauses depth next =
      e.enter config steps call clauses depth next := by
  rw [enter, enter, Substitution.firstMatch_reclaiming]

/-- Doing what a call asks for does not depend on reclaiming in the view. -/
theorem performCall_reclaiming (call : Call) (barrier depth : Nat) (e : Exploration) :
    e.performCall (config.reclaiming reclaim) clausesOf steps call barrier depth =
      e.performCall config clausesOf steps call barrier depth := by
  rw [performCall, performCall]
  cases Goal.ofCall call with
  | error error => rfl
  | ok goal =>
    cases goal with
    | predicate call =>
      simp only [perform, resolve, enter_reclaiming]
      rfl
    | truth | failure | cut | both | either | ifThen | negation | call | unify | differ => rfl

/-- An exploration has nothing to reclaim on its way forward. -/
theorem advance_reclaiming (e : Exploration) :
    e.advance (config.reclaiming reclaim) clausesOf steps = e.advance config clausesOf steps := by
  obtain ⟨s, continuation, branches, inferences⟩ := e
  match continuation with
  | [] => rfl
  | .cutTo height :: next => rfl
  | .call call barrier depth :: next => exact performCall_reclaiming ..
  | .goal goal barrier depth :: next => simp only [advance, performCall_reclaiming]

/-- An exploration has nothing to reclaim on its way back. -/
theorem backtrack_reclaiming (inferences : Nat) (branches : List Branch) :
    backtrack (config.reclaiming reclaim) steps inferences branches =
      backtrack config steps inferences branches := by
  induction branches with
  | nil => rfl
  | cons branch branches ih =>
    match branch with
    | ⟨s, .goal goal barrier depth next⟩ => rfl
    | ⟨s, .clauses call untried depth next⟩ =>
      rw [backtrack, backtrack, enter_reclaiming, ih]

end Exploration

end Reclaiming

section Lockstep

variable {α β : Type} (R : α → β → Prop)

/-- Two listeners do the same on solutions that are alike, and keep their values related. -/
def Listener.Matches (l : Listener α) (l' : Listener β) : Prop :=
  ∀ a b env v w, a.Alike b → R v w → (l a env v).1 = (l' b env w).1 ∧
    (l a env v).2.1 = (l' b env w).2.1 ∧ R (l a env v).2.2 (l' b env w).2.2

/-- Two searches under way have the same view, and their listeners have related values. -/
structure Progress.Matches (p : Progress α) (q : Progress β) : Prop where
  /-- The same number of solutions was delivered. -/
  solutions : p.solutions = q.solutions
  /-- The environments are the same. -/
  environment : p.environment = q.environment
  /-- The values of the listeners are related. -/
  value : R p.value q.value
  /-- The first search is sound. -/
  left : p.state.Sound
  /-- The second search is sound. -/
  right : q.state.Sound
  /-- Both are the same apart from the store. -/
  view : p.state.view = q.state.view

/-- Two searches ended in the same way. -/
structure Report.Matches (r : Report α) (r' : Report β) : Prop where
  /-- The ending is the same. -/
  ending : r.ending = r'.ending
  /-- The environment is the same. -/
  environment : r.environment = r'.environment
  /-- The values of the listeners are related. -/
  value : R r.value r'.value

/-- Reports with equal values that end in the same way are equal. -/
theorem Report.Matches.eq {r r' : Report α} (h : r.Matches Eq r') : r = r' := by
  obtain ⟨ending, env, value⟩ := r
  obtain ⟨ending', env', value'⟩ := r'
  obtain ⟨rfl, rfl, rfl⟩ := h
  rfl

/-- Two turns go on alike or end alike. -/
def Turn.Matches : Turn α → Turn β → Prop
  | .going p, .going q => p.Matches R q
  | .ended r, .ended r' => r.Matches R r'
  | _, _ => False

variable {R} {config : Config} {reclaim reclaim' : Bool} {steps : Nat}

/-- Sound searches with one view hold solutions that are alike. -/
theorem Search.solution_alike {s t : Search} (hs : s.Sound) (ht : t.Sound) (h : s.view = t.view)
    (vars : List Var) : (s.solution vars).Alike (t.solution vars) := by
  have hsubst : s.store.substitution s.context = t.store.substitution t.context :=
    congrArg Exploration.substitution h
  refine ⟨rfl, congrArg Substitution.top hsubst, Store.valueAt_eq_of_substitution_eq hsubst, ?_⟩
  intro o
  change s.store.deref s.context o = t.store.deref t.context o
  rw [Store.deref_eq hs.settles, Store.deref_eq ht.settles, hsubst]

/-- Going back keeps two searches in step. -/
theorem Search.retry_matches {p : Progress α} {q : Progress β} (h : p.Matches R q) :
    (retry (config.reclaiming reclaim) steps p).Matches R
      (retry (config.reclaiming reclaim') steps q) := by
  obtain ⟨count, s, env, v⟩ := p
  obtain ⟨count', t, env', w⟩ := q
  obtain ⟨rfl, rfl, hvalue, hs, ht, hview⟩ := h
  dsimp only at hvalue hs ht hview
  obtain ⟨hsound, hback⟩ := backtrack_view (config.reclaiming reclaim) steps hs
  obtain ⟨hsound', hback'⟩ := backtrack_view (config.reclaiming reclaim') steps ht
  have hinferences : s.inferences = t.inferences := congrArg Exploration.inferences hview
  rw [Exploration.backtrack_reclaiming] at hback hback'
  rw [hview, hinferences, ← hback'] at hback
  rw [retry, retry]
  cases hl : s.backtrack (config.reclaiming reclaim) steps <;>
    cases hr : t.backtrack (config.reclaiming reclaim') steps <;>
    rw [hl, hr] at hback <;> rw [hl] at hsound <;> rw [hr] at hsound' <;>
    try exact Exploration.Return.noConfusion hback
  · exact ⟨rfl, rfl, hvalue, hsound, hsound', Exploration.Return.resumed.inj hback⟩
  · next last last' =>
    have hcount : last.inferences = last'.inferences := Exploration.Return.exhausted.inj hback
    refine ⟨?_, rfl, hvalue⟩
    dsimp only
    rw [hcount]
  · exact ⟨rfl, rfl, hvalue⟩

/-- A turn keeps two searches in step. -/
theorem Search.turn_matches {l : Listener α} {l' : Listener β} (hl : l.Matches R l')
    (index : ClauseIndex) (vars : List Var) {p : Progress α} {q : Progress β}
    (h : p.Matches R q) :
    (turn (config.reclaiming reclaim) index vars l steps p).Matches R
      (turn (config.reclaiming reclaim') index vars l' steps q) := by
  obtain ⟨count, s, env, v⟩ := p
  obtain ⟨count', t, env', w⟩ := q
  obtain ⟨rfl, rfl, hvalue, hs, ht, hview⟩ := h
  dsimp only at hvalue hs ht hview
  rw [turn, turn]
  split
  · exact ⟨rfl, rfl, hvalue⟩
  · obtain ⟨hsound, hstep⟩ :=
      advance_view (config.reclaiming reclaim) (index.matching env.providers) steps hs
    obtain ⟨hsound', hstep'⟩ :=
      advance_view (config.reclaiming reclaim') (index.matching env.providers) steps ht
    rw [Exploration.advance_reclaiming] at hstep hstep'
    rw [hview, ← hstep'] at hstep
    cases hmove : s.advance (config.reclaiming reclaim) (index.matching env.providers) steps <;>
      cases hmove' : t.advance (config.reclaiming reclaim') (index.matching env.providers) steps <;>
      rw [hmove, hmove'] at hstep <;> rw [hmove] at hsound <;> rw [hmove'] at hsound' <;>
      try exact Stage.noConfusion hstep
    · exact ⟨rfl, rfl, hvalue, hsound, hsound', Stage.proceed.inj hstep⟩
    · exact retry_matches ⟨rfl, rfl, hvalue, hsound, hsound', Stage.backtrack.inj hstep⟩
    · next s' t' =>
      have hview' : s'.view = t'.view := Stage.solution.inj hstep
      obtain ⟨hsignal, henv, hvalue'⟩ :=
        hl _ _ env _ _ (solution_alike hsound hsound' hview' vars) hvalue
      have hinferences : s'.inferences = t'.inferences := congrArg Exploration.inferences hview'
      dsimp only
      generalize l (s'.solution vars) env v = reply at hsignal henv hvalue'
      generalize l' (t'.solution vars) env w = reply' at hsignal henv hvalue'
      obtain ⟨signal, env₁, v'⟩ := reply
      obtain ⟨signal', env₂, w'⟩ := reply'
      dsimp only at hsignal henv hvalue'
      subst hsignal henv
      cases signal with
      | abort =>
        refine ⟨?_, rfl, hvalue'⟩
        dsimp only
        rw [hinferences]
      | «continue» => exact retry_matches ⟨rfl, rfl, hvalue', hsound, hsound', hview'⟩
    · obtain rfl := Stage.error.inj hstep
      exact ⟨rfl, rfl, hvalue⟩
    · exact ⟨rfl, rfl, hvalue⟩

/-- Searches in step end in the same way at the same turn. -/
theorem Search.run_matches {l : Listener α} {l' : Listener β} (hl : l.Matches R l')
    (index : ClauseIndex) (vars : List Var) {p : Progress α} {q : Progress β}
    (h : p.Matches R q) :
    (run (config.reclaiming reclaim) index vars l steps p).Matches R
      (run (config.reclaiming reclaim') index vars l' steps q) := by
  induction steps generalizing p q with
  | zero => exact ⟨rfl, h.environment, h.value⟩
  | succ steps ih =>
    have hturn : (turn (config.reclaiming reclaim) index vars l steps p).Matches R
        (turn (config.reclaiming reclaim') index vars l' steps q) := turn_matches hl index vars h
    rw [run, run]
    cases hp : turn (config.reclaiming reclaim) index vars l steps p <;>
      cases hq : turn (config.reclaiming reclaim') index vars l' steps q <;>
      rw [hp, hq] at hturn <;> try exact hturn.elim
    · exact ih hturn
    · exact hturn

/-- Queries in engines that differ in reclaiming only are answered in step. -/
theorem Engine.solve_matches {l : Listener α} {l' : Listener β} (hl : l.Matches R l')
    (engine : Engine) (goal : Term) (steps : Nat) (reclaim reclaim' : Bool) {v : α} {w : β}
    (hvalue : R v w) :
    ((engine.reclaiming reclaim).solve steps goal l v).Matches R
      ((engine.reclaiming reclaim').solve steps goal l' w) :=
  Search.run_matches hl engine.index goal.normalize.vars
    ⟨rfl, rfl, hvalue, Search.sound_start _, Search.sound_start _, rfl⟩

end Lockstep

namespace Listener

variable {α : Type} {listener : Listener α}

/-- A steady listener does the same in both searches. -/
theorem Steady.matches_self (h : listener.Steady) : listener.Matches Eq listener := by
  rintro a b env v _ halike rfl
  rw [h a b env v halike]
  exact ⟨rfl, rfl, rfl⟩

/-- A steady listener that keeps its solutions keeps solutions that are alike. -/
theorem Steady.matches_recording (h : listener.Steady) :
    listener.recording.Matches
      (fun v w => List.Forall₂ Solution.Alike v.1 w.1 ∧ v.2 = w.2) listener.recording := by
  rintro a b env ⟨given, v⟩ ⟨given', _⟩ halike ⟨hgiven, rfl⟩
  simp only [recording, h a b env v halike]
  exact ⟨trivial, trivial, List.rel_append hgiven (.cons halike .nil), trivial⟩

/-- Keeping solutions does not disturb a steady listener. -/
theorem Steady.recording_matches (h : listener.Steady) :
    listener.recording.Matches (fun v w => v.2 = w) listener := by
  rintro a b env ⟨given, v⟩ _ halike rfl
  simp only [recording, h a b env v halike]
  exact ⟨trivial, trivial, trivial⟩

end Listener

/-- Whether bindings are reclaimed is not observed. For every listener that does not look
at stamps and at the size of the store, and every number of steps, both searches end in
the same way with the same environment and the same value of the listener, after they
delivered solutions that are alike and give the same answers. Keeping the delivered
solutions changes nothing about either search. -/
theorem Engine.solve_reclaiming_eq {α : Type} (engine : Engine) (goal : Term)
    (listener : Listener α) (hlistener : listener.Steady) (steps : Nat) (value : α) :
    (engine.reclaiming true).solve steps goal listener value =
        (engine.reclaiming false).solve steps goal listener value ∧
      List.Forall₂ (fun a b => a.Alike b ∧ a.answer? = b.answer?)
        ((engine.reclaiming true).delivered steps goal listener value)
        ((engine.reclaiming false).delivered steps goal listener value) ∧
      ∀ reclaim, ((engine.reclaiming reclaim).solve steps goal listener.recording
        ([], value)).Matches (fun v w => v.2 = w)
        ((engine.reclaiming reclaim).solve steps goal listener value) := by
  have hsame := engine.solve_matches hlistener.matches_self goal steps true false (Eq.refl value)
  have hrecorded := engine.solve_matches hlistener.matches_recording goal steps true false
    (v := ([], value)) (w := ([], value)) ⟨.nil, rfl⟩
  refine ⟨hsame.eq, hrecorded.value.1.imp fun a b h => ⟨h, h.answer?_eq⟩, fun reclaim => ?_⟩
  exact engine.solve_matches hlistener.recording_matches goal steps reclaim reclaim rfl

/-- The goal `X = a ; X = b`. -/
def alternatives : Term :=
  .apply ";" [.apply "=" [.var ⟨"X", none⟩, .atom "a"], .apply "=" [.var ⟨"X", none⟩, .atom "b"]]

/-- Keeps the values of the first variable, last first. -/
def firstValues : Listener (List (Option Term)) := fun solution env values =>
  (.continue, env, solution.store.lookup solution.context 0 :: values)

/-- The goal `X = a ; X = b` has two solutions. The binding of the first one is dropped before the
second is made if bindings are reclaimed, and remains otherwise. -/
theorem Engine.solve_reclaiming_eq_disjunction :
    Listener.Steady firstValues ∧
      ((ofConfig {}).reclaiming true).solve 20 alternatives firstValues [] =
        ((ofConfig {}).reclaiming false).solve 20 alternatives firstValues [] ∧
      (((ofConfig {}).reclaiming true).solve 20 alternatives firstValues []).ending =
        .finished ⟨2, 0, false⟩ ∧
      (((ofConfig {}).reclaiming true).solve 20 alternatives firstValues []).value =
        [some (.atom "b"), some (.atom "a")] ∧
      (((ofConfig {}).reclaiming true).delivered 20 alternatives firstValues []).map
        (·.store.size) = [1, 1] ∧
      (((ofConfig {}).reclaiming false).delivered 20 alternatives firstValues []).map
        (·.store.size) = [1, 2] := by
  have hsteady : Listener.Steady firstValues := fun _ _ _ _ h => by
    simp only [firstValues, Store.lookup, h.valueAt]
  obtain ⟨hsame, -, -⟩ := solve_reclaiming_eq (ofConfig {}) alternatives firstValues hsteady 20 []
  refine ⟨hsteady, hsame, ?_, ?_, ?_, ?_⟩
  · with_unfolding_all rfl
  · with_unfolding_all rfl
  · with_unfolding_all rfl
  · with_unfolding_all rfl

end ClauseResolution
