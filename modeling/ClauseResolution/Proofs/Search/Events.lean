import ClauseResolution.Engine.Solve

/-!
# The events of a search

What a search does can be told by the predicates that it calls, each with the number of
clauses around the call, and by the solutions that it finds, in the order in which this
happens. A turn has at most one such event, and it can be read off the state before the
turn. The bounds of a configuration are looked at only where a predicate is called.
-/

namespace ClauseResolution

/-- What a search can be seen to do. -/
inductive Event
  /-- A predicate is called, with a number of clauses around the call. -/
  | call (call : Call) (depth : Nat)
  /-- All goals are done. -/
  | solution (s : Solution)

namespace Event

/-- One for the call of a predicate. -/
def calls : Event → Nat
  | .call .. => 1
  | .solution _ => 0

/-- One for a solution. -/
def solutions : Event → Nat
  | .call .. => 0
  | .solution _ => 1

/-- The solution that is found. -/
def solution? : Event → Option Solution
  | .call .. => none
  | .solution s => some s

/-- The depth of the call. -/
def depth? : Event → Option Nat
  | .call _ depth => some depth
  | .solution _ => none

end Event

/-- The call that a frame makes in a context, with its depth. -/
def Frame.call? (σ : Store) (c : Context) : Frame → Option (Call × Nat)
  | .goal target _ depth =>
    match Call.ofOccurrence (σ.deref c target) with
    | .ok callee => some (callee, depth)
    | .error _ => none
  | .call callee _ depth => some (callee, depth)
  | .cutTo _ => none

/-- The call of a predicate, if the call is no control construct. -/
def Call.predicate? (call : Call) : Option Call :=
  match Goal.ofCall call with
  | .ok (.predicate callee) => some callee
  | _ => none

namespace Search

/-- The predicate that is called next, with its depth. -/
def predicateCall? (state : Search) : Option (Call × Nat) := do
  let frame ← state.continuation.head?
  let (call, depth) ← frame.call? state.store state.context
  call.predicate?.map (·, depth)

/-- The event of the next step. -/
def event? (vars : List Var) (state : Search) : Option Event :=
  if state.continuation.isEmpty then some (.solution (state.solution vars))
  else state.predicateCall?.map fun (call, depth) => .call call depth

/-- The event of the next turn; an interrupted search has none. -/
def turnEvent? {α : Type} (vars : List Var) (p : Progress α) : Option Event :=
  if p.environment.interrupted then none else p.state.event? vars

/-- The events of a search within a number of steps, in order. -/
def events {α : Type} (config : Config) (index : ClauseIndex) (vars : List Var)
    (listener : Listener α) : Nat → Progress α → List Event
  | 0, _ => []
  | steps + 1, p =>
    (turnEvent? vars p).toList ++ match turn config index vars listener steps p with
      | .going p => events config index vars listener steps p
      | .ended _ => []

end Search

/-- The same configuration with other bounds. -/
def Config.within (config : Config) (maxDepth : Nat) (maxInferences : Option Nat) : Config :=
  { config with maxDepth, maxInferences }

section Bounds

variable {config : Config} {clausesOf : String → List Clause} {steps : Nat} {d : Nat}
  {n : Option Nat}

/-- Finding the first clause that matches does not depend on the limits. -/
theorem firstMatch_within (c : Context) (mark : Nat) (call : Call) (σ : Store)
    (clauses : List Clause) :
    firstMatch (config.within d n) steps c mark call σ clauses =
      firstMatch config steps c mark call σ clauses := by
  induction clauses generalizing σ with
  | nil => rfl
  | cons clause clauses ih =>
    have hhead : call.unifyHead (config.within d n) steps σ (clause.rename c).context
        (clause.rename c).head =
      call.unifyHead config steps σ (clause.rename c).context (clause.rename c).head := rfl
    rw [firstMatch, firstMatch, hhead]
    cases call.unifyHead config steps σ (clause.rename c).context (clause.rename c).head with
    | unified | unfinished => rfl
    | clash τ => exact ih (config.reclaim mark τ)

namespace Search

/-- The bounds are not looked at when a clause is entered. -/
theorem enter_within (call : Call) (clauses : List Clause) (depth : Nat) (next : List Frame)
    (state : Search) : enter (config.within d n) steps call clauses depth next state =
      enter config steps call clauses depth next state := by
  rw [enter, enter, firstMatch_within]

/-- Nor are they when the search goes back. -/
theorem backtrack_within (state : Search) :
    state.backtrack (config.within d n) steps = state.backtrack config steps := by
  have hreclaim : (config.within d n).reclaim = config.reclaim := rfl
  fun_induction backtrack config steps state with
  | case1 σ c continuation choices inferences hlast => simp [backtrack_eq, hlast]
  | case2 σ c continuation choices inferences context mark goal barrier depth next hlast
      σ' =>
    simp [backtrack_eq, hlast, hreclaim, σ']
  | case3 σ c continuation choices inferences context mark call untried depth next hlast σ' state'
      henter => simp [backtrack_eq, hlast, hreclaim, enter_within, σ', henter]
  | case4 σ c continuation choices inferences context mark call untried depth next hlast σ' state'
      henter ih =>
    rw [backtrack_eq, hlast]
    simp [hreclaim, enter_within, σ', henter, ih]
  | case5 σ c continuation choices inferences context mark call untried depth next hlast σ'
      henter => simp [backtrack_eq, hlast, hreclaim, enter_within, σ', henter]

/-- Where no predicate is called the bounds are not looked at. -/
theorem advance_within {state : Search} (h : state.predicateCall? = none) :
    state.advance (config.within d n) clausesOf steps = state.advance config clausesOf steps := by
  have hcall : ∀ (call : Call) (barrier depth : Nat) (state : Search), call.predicate? = none →
      performCall (config.within d n) clausesOf steps call barrier depth state =
        performCall config clausesOf steps call barrier depth state := by
    intro call barrier depth state hnone
    rw [performCall, performCall]
    cases hgoal : Goal.ofCall call with
    | error cause => rfl
    | ok goal =>
      cases goal with
      | predicate callee => simp [Call.predicate?, hgoal] at hnone
      | truth | failure | cut | both | either | ifThen | negation | call | unify | differ => rfl
  obtain ⟨σ, c, continuation, choices, inferences⟩ := state
  match continuation with
  | [] => rfl
  | .cutTo height :: next => rfl
  | .call call barrier depth :: next =>
    refine hcall call barrier depth _ ?_
    simpa [predicateCall?, Frame.call?] using h
  | .goal goal barrier depth :: next =>
    rw [advance, advance]
    cases hread : Call.ofOccurrence (σ.deref c goal) with
    | error cause => rfl
    | ok call =>
      refine hcall call barrier depth _ ?_
      simpa [predicateCall?, Frame.call?, hread] using h

/-- A predicate that is called next is looked up next. -/
theorem advance_of_predicateCall {state : Search} {call : Call} {depth : Nat}
    (h : state.predicateCall? = some (call, depth)) :
    state.advance config clausesOf steps =
      resolve config clausesOf steps call depth
        { state with continuation := state.continuation.tail } := by
  have hcall : ∀ (callee : Call) (barrier depth : Nat) (state : Search),
      callee.predicate? = some call →
      performCall config clausesOf steps callee barrier depth state =
        resolve config clausesOf steps call depth state := by
    intro callee barrier depth state hsome
    rw [performCall]
    cases hgoal : Goal.ofCall callee with
    | error cause => simp [Call.predicate?, hgoal] at hsome
    | ok goal =>
      cases goal <;> simp [Call.predicate?, hgoal] at hsome
      rw [hsome]
      rfl
  obtain ⟨σ, c, continuation, choices, inferences⟩ := state
  match continuation with
  | [] => simp [predicateCall?] at h
  | .cutTo height :: next => simp [predicateCall?, Frame.call?] at h
  | .call callee barrier depth' :: next =>
    obtain ⟨_, hsome, rfl, rfl⟩ :
        ∃ a, callee.predicate? = some a ∧ a = call ∧ depth' = depth := by
      simpa [predicateCall?, Frame.call?, Option.bind_eq_some_iff] using h
    exact hcall callee barrier depth' _ hsome
  | .goal goal barrier depth' :: next =>
    cases hread : Call.ofOccurrence (σ.deref c goal) with
    | error cause => simp [predicateCall?, Frame.call?, hread] at h
    | ok callee =>
      obtain ⟨_, hsome, rfl, rfl⟩ :
        ∃ a, callee.predicate? = some a ∧ a = call ∧ depth' = depth := by
        simpa [predicateCall?, Frame.call?, hread, Option.bind_eq_some_iff] using h
      rw [advance, hread]
      exact hcall callee barrier depth' _ hsome

/-- A call within the bounds is counted, and its first matching clause is entered. -/
theorem resolve_within {state : Search} {call : Call} {depth : Nat} (hdepth : depth < d)
    (hcalls : ∀ limit ∈ n, state.inferences < limit) :
    resolve (config.within d n) clausesOf steps call depth state =
      resolve (config.within (depth + 1) none) clausesOf steps call depth state := by
  have hnone : n.filter (· < state.inferences + 1) = none := by
    refine Option.filter_eq_none_iff.2 fun limit hlimit => ?_
    have := hcalls limit hlimit
    simp only [decide_eq_true_eq]
    omega
  have hfar : ¬ (config.within d n).maxDepth ≤ depth := Nat.not_le.2 hdepth
  have hfar' : ¬ (config.within (depth + 1) none).maxDepth ≤ depth :=
    Nat.not_le.2 depth.lt_succ_self
  rw [resolve, resolve, if_neg hfar, if_neg hfar']
  simp only [enter_within]
  simp only [Config.within, hnone, Option.filter_none]

/-- A call that is too deep is refused. -/
theorem resolve_of_depth_le {state : Search} {call : Call} {depth : Nat} (h : d ≤ depth) :
    resolve (config.within d n) clausesOf steps call depth state = .error (.depthExceeded d) :=
  if_pos h

/-- A call after the last one that is allowed is refused. -/
theorem resolve_of_limit {state : Search} {call : Call} {depth limit : Nat} (h : depth < d)
    (hn : n = some limit) (hlimit : limit = state.inferences) :
    resolve (config.within d n) clausesOf steps call depth state =
      .error (.inferenceLimit limit) := by
  subst hn hlimit
  have hfar : ¬ (config.within d (some state.inferences)).maxDepth ≤ depth := Nat.not_le.2 h
  have hpast : (some state.inferences).filter (· < state.inferences + 1) =
      some state.inferences := by simp
  rw [resolve, if_neg hfar]
  simp only [Config.within, hpast]

/-- Going back does not depend on the limits. -/
theorem retry_within {α : Type} (p : Progress α) :
    retry (config.within d n) steps p = retry config steps p := by
  rw [retry, retry, backtrack_within]

end Search

end Bounds

namespace Search

variable {config : Config} {clausesOf : String → List Clause} {steps : Nat} {vars : List Var}
  {state : Search}

/-- The call of a predicate is the event of its step. -/
theorem event?_of_predicateCall {call : Call} {depth : Nat}
    (h : state.predicateCall? = some (call, depth)) :
    state.event? vars = some (.call call depth) := by
  obtain ⟨σ, c, continuation, choices, inferences⟩ := state
  cases continuation with
  | nil => simp [predicateCall?] at h
  | cons frame next => simp [event?, h]

/-- Only a search with nothing left to do has a solution. -/
theorem advance_eq_solution {last : Search}
    (h : state.advance config clausesOf steps = .solution last) :
    state.continuation = [] ∧ last = state := by
  have hcall : ∀ (call : Call) (barrier depth : Nat) (state : Search),
      performCall config clausesOf steps call barrier depth state ≠ .solution last := by
    intro call barrier depth state
    rw [performCall]
    cases Goal.ofCall call with
    | error cause => exact Move.noConfusion
    | ok goal =>
      cases goal with
      | truth | failure | cut | both | either | ifThen | negation => exact Move.noConfusion
      | call | unify | differ =>
        simp only [perform]
        split <;> exact Move.noConfusion
      | predicate callee =>
        simp only [perform, resolve]
        split
        · exact Move.noConfusion
        · split
          · exact Move.noConfusion
          · split <;> exact Move.noConfusion
  obtain ⟨σ, c, continuation, choices, inferences⟩ := state
  cases continuation with
  | nil =>
    cases h
    exact ⟨rfl, rfl⟩
  | cons frame next =>
    cases frame with
    | cutTo height => cases h
    | call call barrier depth => exact absurd h (hcall call barrier depth _)
    | goal goal barrier depth =>
      rw [advance] at h
      split at h
      · cases h
      · exact absurd h (hcall _ barrier depth _)

/-- A search with nothing left to do has a solution. -/
theorem advance_of_done (h : state.continuation = []) :
    state.advance config clausesOf steps = .solution state := by
  obtain ⟨σ, c, continuation, choices, inferences⟩ := state
  subst h
  rfl

/-- The event of a search with something left to do is no solution. -/
theorem event?_eq_solution {s : Solution} (h : state.event? vars = some (.solution s)) :
    state.continuation = [] ∧ s = state.solution vars := by
  rw [event?] at h
  split at h
  · next hdone =>
    cases h
    exact ⟨List.isEmpty_iff.1 hdone, rfl⟩
  · cases hcall : state.predicateCall? with
    | none => simp [hcall] at h
    | some called => simp [hcall] at h

/-- The event of a search is the call of the predicate that is looked up. -/
theorem event?_eq_call {call : Call} {depth : Nat}
    (h : state.event? vars = some (.call call depth)) :
    state.predicateCall? = some (call, depth) := by
  rw [event?] at h
  split at h
  · cases h
  · cases hcall : state.predicateCall? with
    | none => simp [hcall] at h
    | some called =>
      rw [hcall] at h
      cases h
      rfl

/-- A step without an event calls no predicate. -/
theorem predicateCall?_of_event? (vars : List Var)
    (h : ∀ call depth, state.event? vars ≠ some (.call call depth)) :
    state.predicateCall? = none := by
  cases hcall : state.predicateCall? with
  | none => rfl
  | some called => exact absurd (event?_of_predicateCall hcall) (h _ _)

end Search

/-- The state a step leads to, if the search is not over. -/
def Move.state? : Move → Option Search
  | .proceed state | .backtrack state | .solution state => some state
  | .error _ | .unfinished => none

/-- The state after a look for a matching clause. -/
def Entry.state? : Entry → Option Search
  | .entered state | .missed state => some state
  | .unfinished => none

/-- The state that going back leads to, also when it is the last one. -/
def Search.Resumption.state? : Search.Resumption → Option Search
  | .resumed state | .exhausted state => some state
  | .unfinished => none

namespace Search

variable {config : Config} {clausesOf : String → List Clause} {steps : Nat} {state state' : Search}

/-- Entering a clause is no further call. -/
theorem inferences_enter {call : Call} {clauses : List Clause} {depth : Nat} {next : List Frame}
    (h : (enter config steps call clauses depth next state).state? = some state') :
    state'.inferences = state.inferences := by
  rw [enter] at h
  dsimp only at h
  cases hmatch : firstMatch config steps state.context state.store.size call state.store clauses
  all_goals
    rw [hmatch] at h
    cases h
  · rfl
  · rfl

/-- A step that calls no predicate leaves the number of calls alone. -/
theorem inferences_advance (hnone : state.predicateCall? = none)
    (h : (state.advance config clausesOf steps).state? = some state') :
    state'.inferences = state.inferences := by
  have hcall : ∀ (call : Call) (barrier depth : Nat) (state : Search), call.predicate? = none →
      (performCall config clausesOf steps call barrier depth state).state? = some state' →
      state'.inferences = state.inferences := by
    intro call barrier depth state hnone h
    rw [performCall] at h
    cases hgoal : Goal.ofCall call with
    | error cause => simp [hgoal, Move.state?] at h
    | ok goal =>
      simp only [hgoal] at h
      cases goal with
      | predicate callee => simp [Call.predicate?, hgoal] at hnone
      | truth | failure | cut | both | either | negation =>
        cases h
        rfl
      | ifThen condition consequent alternative =>
        cases h
        cases alternative <;> rfl
      | call target extra =>
        simp only [perform] at h
        split at h
        · cases h
        · cases h
          rfl
      | unify left right | differ left right =>
        simp only [perform] at h
        split at h <;> cases h <;> rfl
  obtain ⟨σ, c, continuation, choices, inferences⟩ := state
  cases continuation with
  | nil =>
    cases h
    rfl
  | cons frame next =>
    cases frame with
    | cutTo height =>
      cases h
      rfl
    | call call barrier depth =>
      refine hcall call barrier depth ⟨σ, c, next, choices, inferences⟩ ?_ h
      simpa [predicateCall?, Frame.call?] using hnone
    | goal goal barrier depth =>
      rw [advance] at h
      cases hread : Call.ofOccurrence (σ.deref c goal) with
      | error cause => simp [hread, Move.state?] at h
      | ok call =>
        simp only [hread] at h
        refine hcall call barrier depth ⟨σ, c, next, choices, inferences⟩ ?_ h
        simpa [predicateCall?, Frame.call?, hread] using hnone

/-- A step that calls a predicate counts it. -/
theorem inferences_resolve {call : Call} {depth : Nat}
    (h : (resolve config clausesOf steps call depth state).state? = some state') :
    state'.inferences = state.inferences + 1 := by
  rw [resolve] at h
  split at h
  · cases h
  · dsimp only at h
    cases hlimit : config.maxInferences.filter (· < state.inferences + 1) with
    | some limit =>
      simp only [hlimit] at h
      cases h
    | none =>
      simp only [hlimit] at h
      cases henter : enter config steps call (clausesOf call.indicator) depth state.continuation
          { state with inferences := state.inferences + 1 }
      all_goals
        rw [henter] at h
        cases h
      · exact inferences_enter (congrArg Entry.state? henter)
      · exact inferences_enter (congrArg Entry.state? henter)

/-- Going back leaves the number of calls alone. -/
theorem inferences_backtrack (h : (state.backtrack config steps).state? = some state') :
    state'.inferences = state.inferences := by
  fun_induction backtrack config steps state with
  | case1 | case2 =>
    cases h
    rfl
  | case3 σ c continuation choices inferences context mark call untried depth next hlast σ' last
      henter =>
    cases h
    have hentered := inferences_enter (congrArg Entry.state? henter)
    exact hentered
  | case4 σ c continuation choices inferences context mark call untried depth next hlast σ' last
      henter ih =>
    have hmissed := inferences_enter (congrArg Entry.state? henter)
    exact (ih h).trans hmissed
  | case5 => cases h

/-- A step counts the calls of its event. -/
theorem inferences_of_advance (vars : List Var)
    (h : (state.advance config clausesOf steps).state? = some state') :
    state'.inferences = state.inferences + (state.event? vars).elim 0 Event.calls := by
  cases hevent : state.event? vars with
  | none =>
    have hnone : state.predicateCall? = none :=
      predicateCall?_of_event? vars (by simp [hevent])
    exact inferences_advance hnone h
  | some event =>
    cases event with
    | call call depth =>
      have hcall := event?_eq_call hevent
      rw [advance_of_predicateCall hcall] at h
      have hcounted := inferences_resolve h
      exact hcounted
    | solution s =>
      have hnone : state.predicateCall? = none :=
        predicateCall?_of_event? vars (by simp [hevent])
      exact inferences_advance hnone h

end Search

end ClauseResolution
