import ClauseResolution.Proofs.Search.Matching

/-!
# A search with new variables for the anonymous one

A search among clauses with new variables for the anonymous one takes the steps of the search among
the clauses without, as long as the latter binds no variable to a term with a blank: the same
clauses match, the same branches are left, and what is done next is read as what is done there.
-/

namespace ClauseResolution

open Substitution

/-- What is left on a branch is read as what is left on the other. -/
inductive Alternative.ReadsAs (r : Reading) : Alternative → Alternative → Prop
  /-- A goal. -/
  | goal (target : Occurrence) (barrier depth : Nat) (next : List Frame) :
      ReadsAs r (.goal (target.readBy r) barrier depth (next.map (Frame.readBy r)))
        (.goal target barrier depth next)
  /-- Clauses, with new variables on the second. -/
  | clauses {untried untried' : List Clause} (call : Call) (depth : Nat) (next : List Frame)
      (hclauses : List.Forall₂ Clause.Fills untried untried') :
      ReadsAs r (.clauses (call.map (Occurrence.readBy r)) untried depth
        (next.map (Frame.readBy r))) (.clauses call untried' depth next)

/-- A branch is read as the other one. -/
def Branch.ReadsAs (branch branch' : Branch) : Prop :=
  ∃ r, Carries r branch.substitution branch'.substitution branch'.alternative.frames ∧
    Alternative.ReadsAs r branch.alternative branch'.alternative

/-- An exploration is read as the other one. -/
structure Exploration.ReadsAs (e e' : Exploration) : Prop where
  /-- The goals that remain are. -/
  current : ClauseResolution.ReadsAs e.substitution e.continuation e'.substitution e'.continuation
  /-- The branches are. -/
  branches : List.Forall₂ Branch.ReadsAs e.branches e'.branches
  /-- As many predicates were called. -/
  inferences : e'.inferences = e.inferences

/-- What a step leads to is read as what the other one leads to, unless the first does not end. -/
def Stage.ReadsAs : Stage → Stage → Prop
  | .proceed e, .proceed e' | .backtrack e, .backtrack e' | .solution e, .solution e' =>
    e.ReadsAs e'
  | .error cause, .error cause' => cause' = cause
  | .unfinished, _ => True
  | _, _ => False

/-- What going back leads to is read as what it leads to in the other, unless it does not end. -/
def Exploration.Return.ReadsAs : Exploration.Return → Exploration.Return → Prop
  | .resumed e, .resumed e' => e.ReadsAs e'
  | .exhausted inferences, .exhausted inferences' => inferences' = inferences
  | .unfinished, _ => True
  | _, _ => False

namespace Exploration

variable {config : Config} {e e' : Exploration} {r : Reading} {call : Call} {barrier depth : Nat}
  {clauses clauses' : List Clause} {next : List Frame} {steps : Nat}

/-- There are as many branches. -/
theorem ReadsAs.length (h : e.ReadsAs e') : e'.branches.length = e.branches.length :=
  h.branches.length_eq.symm

/-- Explorations of which one is read as the other are still so after a cut. -/
theorem ReadsAs.cut (h : e.ReadsAs e') (height : Nat) : (e.cut height).ReadsAs (e'.cut height) := by
  refine ⟨h.current, ?_, h.inferences⟩
  rw [Exploration.cut, Exploration.cut, h.length]
  exact List.forall₂_drop _ h.branches

/-- The exploration about to run a goal is read as the one about to run it with new variables. -/
theorem start_readsAs {news : List String} {goal goal' : Term} (h : Fills news [goal] [goal']) :
    (start goal.normalize).ReadsAs (start goal'.normalize) := by
  obtain ⟨q, hq⟩ := h.normalize
  have hcovers : q.Covers goal.normalize.vars.length := by
    simpa using hq.covers
  have hlength : q.length = goal'.normalize.vars.length := by
    simpa using hq.length
  have hread : goal'.normalize.term.readBy q = goal.normalize.term := (List.cons.inj hq.read).1
  have hfits : (Frame.goal (.whole 0 goal'.normalize.term) 0 0).Fits q :=
    .of_length_le_one (Nat.le_refl 1)
      (List.forall_mem_singleton.2 (List.forall_mem_singleton.1 hq.fits))
      (List.forall_mem_singleton.2 fun b hb => by
        obtain ⟨node, _, rfl⟩ := List.mem_map.1 hb
        rfl)
  have hgaps : (start goal'.normalize).continuation.flatMap (Frame.gaps q) =
      [goal'.normalize.term].flatMap (Term.gaps q) := by
    rw [start, List.flatMap_singleton, Frame.gaps_goal, List.flatMap_singleton]
    rfl
  refine ⟨⟨q, ⟨.start hcovers hlength, confines_of_bindings_eq_nil rfl,
    confines_of_bindings_eq_nil rfl, List.forall_mem_singleton.2 hfits, ?_, fun g hg => ?_⟩, ?_⟩,
    .nil, rfl⟩
  · rw [hgaps]
    exact hq.nodup
  · rw [hgaps, List.flatMap_singleton] at hg
    exact .start (Term.mem_gaps.1 hg).2
  · rw [start, ← hread]
    rfl

/-- A clause that matches is entered on both, or no clause matches. -/
theorem enter_cases (hbranches : List.Forall₂ Branch.ReadsAs e.branches e'.branches)
    (hinferences : e'.inferences = e.inferences)
    (h : Carries r e.substitution e'.substitution (.call call barrier depth :: next))
    (hhit : Hit.ReadsAs (next.map (Frame.readBy r)) next
      (e.substitution.firstMatch config steps (call.map (Occurrence.readBy r)) clauses)
      (e'.substitution.firstMatch config steps call clauses')) :
    (∃ e₁ e₁', e.enter config steps (call.map (Occurrence.readBy r)) clauses depth
          (next.map (Frame.readBy r)) = .proceed e₁ ∧
        e'.enter config steps call clauses' depth next = .proceed e₁' ∧ e₁.ReadsAs e₁') ∨
      (e.enter config steps (call.map (Occurrence.readBy r)) clauses depth
          (next.map (Frame.readBy r)) = .backtrack e ∧
        e'.enter config steps call clauses' depth next = .backtrack e') ∨
      e.enter config steps (call.map (Occurrence.readBy r)) clauses depth
        (next.map (Frame.readBy r)) = .unfinished := by
  rw [Exploration.enter, Exploration.enter]
  generalize e.substitution.firstMatch config steps (call.map (Occurrence.readBy r)) clauses = hit
    at hhit ⊢
  generalize e'.substitution.firstMatch config steps call clauses' = hit' at hhit ⊢
  cases hit <;> cases hit' <;> try exact hhit.elim
  case missing.missing => exact Or.inr (Or.inl ⟨rfl, rfl⟩)
  case unfinished.found | unfinished.missing | unfinished.unfinished => exact Or.inr (Or.inr rfl)
  case found.found s body isFact untried s' body' isFact' untried' =>
    obtain ⟨rfl, huntried, hframes⟩ := hhit
    have hlength := hbranches.length_eq
    have hempty : untried'.isEmpty = untried.isEmpty := by
      cases huntried <;> rfl
    refine Or.inl ⟨_, _, rfl, rfl, ?_, ?_, hinferences⟩
    · dsimp only
      rw [hlength]
      split
      · exact ClauseResolution.ReadsAs.tail (hframes 0 0)
      · exact hframes _ _
    · dsimp only
      rw [hempty]
      split
      · exact hbranches
      · exact .cons ⟨r, h.reframe 0 depth, .clauses call depth next huntried⟩ hbranches

/-- A call is about to be made that is read as the call that is about to be made in the other
exploration. -/
structure CallsAs (r : Reading) (call : Call) (barrier depth : Nat) (e e' : Exploration) :
    Prop where
  /-- The call and the goals after it can be read. -/
  carries : Carries r e.substitution e'.substitution (.call call barrier depth :: e'.continuation)
  /-- The goals after the call are read as those of the other. -/
  continuation : e.continuation = e'.continuation.map (Frame.readBy r)
  /-- The branches are read as those of the other. -/
  branches : List.Forall₂ Branch.ReadsAs e.branches e'.branches
  /-- As many predicates were called. -/
  inferences : e'.inferences = e.inferences

namespace CallsAs

/-- After the call both go on alike. -/
theorem rest (h : CallsAs r call barrier depth e e') : e.ReadsAs e' :=
  ⟨⟨r, h.carries.tail, h.continuation⟩, h.branches, h.inferences⟩

/-- A predicate is called on both, if the same clause matches. -/
theorem resolve {clausesOf clausesOf' : String → List Clause}
    (h : CallsAs r call barrier depth e e')
    (hhit : ¬ config.maxDepth ≤ depth →
      config.maxInferences.filter (· < e.inferences + 1) = none →
      Hit.ReadsAs (e'.continuation.map (Frame.readBy r)) e'.continuation
        (e.substitution.firstMatch config steps (call.map (Occurrence.readBy r))
          (clausesOf call.indicator))
        (e'.substitution.firstMatch config steps call (clausesOf' call.indicator))) :
    Stage.ReadsAs (e.resolve config clausesOf steps (call.map (Occurrence.readBy r)) depth)
      (e'.resolve config clausesOf' steps call depth) := by
  obtain ⟨s, continuation, branches, inferences⟩ := e
  obtain ⟨s', next, branches', inferences'⟩ := e'
  obtain ⟨hcarries, hcontinuation, hbranches, hinferences⟩ := h
  dsimp only at hcarries hcontinuation hbranches hinferences hhit
  subst hcontinuation hinferences
  rw [Exploration.resolve, Exploration.resolve, Call.indicator_map]
  dsimp only
  split
  · rfl
  · next hdepth =>
    cases hlimit : config.maxInferences.filter (· < inferences' + 1) with
    | some limit => rfl
    | none =>
      have hcounted : List.Forall₂ Branch.ReadsAs
          (Exploration.mk s (next.map (Frame.readBy r)) branches (inferences' + 1)).branches
          (Exploration.mk s' next branches' (inferences' + 1)).branches := hbranches
      rcases enter_cases hcounted rfl hcarries (hhit hdepth hlimit) with
        ⟨_, _, hwild, hfilled, hreads⟩ | ⟨hwild, hfilled⟩ | hwild
      · dsimp only
        rw [hwild, hfilled]
        exact hreads
      · dsimp only
        rw [hwild, hfilled]
        exact ⟨⟨r, hcarries.tail, rfl⟩, hbranches, rfl⟩
      · dsimp only
        rw [hwild]
        trivial

/-- What a call asks for is done on both, if unifications end alike and the same clauses match. -/
theorem perform {clausesOf clausesOf' : String → List Clause} {goal : Goal}
    (h : CallsAs r call barrier depth e e') (hasks : Goal.Asks call goal)
    (hverdict : ∀ left right, goal = .unify left right ∨ goal = .differ left right →
      Verdict.Carries r e'.continuation
        (e.substitution.unifyPairs .byOccurrence config.occursCheck steps []
          [(left.readBy r, right.readBy r)])
        (e'.substitution.unifyPairs .byOccurrence config.occursCheck steps [] [(left, right)]))
    (hresolve : goal = .predicate call →
      Stage.ReadsAs (e.resolve config clausesOf steps (call.map (Occurrence.readBy r)) depth)
        (e'.resolve config clausesOf' steps call depth)) :
    Stage.ReadsAs
      (e.perform config clausesOf steps (goal.map (Occurrence.readBy r)) barrier depth)
      (e'.perform config clausesOf' steps goal barrier depth) := by
  have hrest := h.rest
  have hlength := hrest.length
  obtain ⟨s, continuation, branches, inferences⟩ := e
  obtain ⟨s', next, branches', inferences'⟩ := e'
  obtain ⟨hcarries, hcontinuation, hbranches, hinferences⟩ := h
  dsimp only at hcarries hcontinuation hbranches hinferences hlength hverdict hresolve
  subst hcontinuation hinferences
  cases hasks with
  | truth | failure => exact hrest
  | cut => exact hrest.cut barrier
  | @both left right =>
    exact ⟨⟨r, hcarries.goals [.goal left barrier depth, .goal right barrier depth]
      (by simp [Frame.occurrences]) (.refl _), rfl⟩, hbranches, rfl⟩
  | @either left right =>
    have hright := hcarries.goals [.goal right barrier depth] (by simp [Frame.occurrences])
      (by simp [Frame.occurrences])
    exact ⟨⟨r, hcarries.goals [.goal left barrier depth] (by simp [Frame.occurrences])
      (by simp [Frame.occurrences]), rfl⟩, .cons ⟨r, hright, .goal ..⟩ hbranches, rfl⟩
  | @ifThenElse left right condition consequent hleft =>
    have hparts := hcarries.parts List.mem_cons_self hleft
      [.goal condition (branches'.length + 1) depth, .cutTo branches'.length,
        .goal consequent barrier depth] (by simp [Frame.occurrences]) (.refl _)
    have hright := hcarries.goals [.goal right barrier depth] (by simp [Frame.occurrences])
      (by simp [Frame.occurrences])
    refine ⟨⟨r, hparts, ?_⟩, .cons ⟨r, hright, .goal ..⟩ hbranches, rfl⟩
    simp only [continueWith, offer, Option.map_some, List.length_cons, hlength]
    rfl
  | @ifThen condition consequent =>
    refine ⟨⟨r, hcarries.goals [.goal condition branches'.length depth, .cutTo branches'.length,
      .goal consequent barrier depth] (by simp [Frame.occurrences]) (.refl _), ?_⟩, hbranches, rfl⟩
    rw [hlength]
    rfl
  | @negation functor target hname =>
    have htruth := (hcarries.tail.truth barrier depth)
    have htarget := hcarries.goals [.goal target (branches'.length + 1) depth,
      .cutTo branches'.length, .call ⟨"fail", []⟩ barrier depth] (by simp [Frame.occurrences])
      (by simp [Frame.occurrences])
    refine ⟨⟨r, htarget.sublist (List.sublist_append_left ..), ?_⟩, .cons
      ⟨r, htruth, .goal (.whole 0 Clause.truth) barrier depth next⟩ hbranches, rfl⟩
    simp only [continueWith, offer, List.length_cons, hlength]
    rfl
  | @call target extra =>
    have hcall := hcarries.ofOccurrence_deref List.mem_cons_self
    simp only [Exploration.perform, Goal.map] at hcall ⊢
    rw [hcall]
    cases hcallee : Call.ofOccurrence (s'.deref target) with
    | error cause => rfl
    | ok callee =>
      refine ⟨⟨r, hcarries.called hcallee branches'.length depth, ?_⟩, hbranches, rfl⟩
      simp only [continueWith, hlength, Call.addArgs_map]
      rfl
  | @unify left right =>
    have hends := hverdict left right (Or.inl rfl)
    simp only [Exploration.perform, Goal.map]
    generalize s.unifyPairs .byOccurrence config.occursCheck steps []
      [(left.readBy r, right.readBy r)] = verdict at hends ⊢
    generalize s'.unifyPairs .byOccurrence config.occursCheck steps [] [(left, right)] =
      verdict' at hends ⊢
    cases verdict <;> cases verdict' <;> try exact hends.elim
    case unified.unified => exact ⟨⟨r, hends, rfl⟩, hbranches, rfl⟩
    case clash.clash => exact hrest
    all_goals trivial
  | @differ left right =>
    have hends := hverdict left right (Or.inr rfl)
    simp only [Exploration.perform, Goal.map]
    generalize s.unifyPairs .byOccurrence config.occursCheck steps []
      [(left.readBy r, right.readBy r)] = verdict at hends ⊢
    generalize s'.unifyPairs .byOccurrence config.occursCheck steps [] [(left, right)] =
      verdict' at hends ⊢
    cases verdict <;> cases verdict' <;> try exact hends.elim
    case unified.unified => exact hrest
    case clash.clash => exact hrest
    all_goals trivial
  | predicate huser => exact hresolve rfl

end CallsAs

end Exploration

/-- No blank is in the store that a step leaves. -/
def Move.Plain : Move → Prop
  | .proceed state | .backtrack state | .solution state => state.store.Plain
  | .error _ | .unfinished => True

/-- No blank is in the store that a look for a matching clause leaves. -/
def Entry.Plain : Entry → Prop
  | .entered state | .missed state => state.store.Plain
  | .unfinished => True

/-- No blank is in the store that going back leaves. -/
def Search.Resumption.Plain : Search.Resumption → Prop
  | .resumed state | .exhausted state => state.store.Plain
  | .unfinished => True

namespace Search

open Exploration (CallsAs)

variable {config : Config} {clausesOf clausesOf' : String → List Clause} {steps : Nat}
  {r : Reading} {call : Call} {barrier depth : Nat} {state : Search} {e' : Exploration}
  {clauses clauses' : List Clause} {next : List Frame}

/-- Where a clause is entered plainly, the first match is found plainly. -/
theorem plain_firstMatch_of_enter
    (h : (enter config steps call clauses depth next state).Plain) :
    (firstMatch config steps state.context state.store.size call state.store clauses).Plain := by
  obtain ⟨σ, c, continuation, choices, inferences⟩ := state
  rw [enter] at h
  dsimp only at h ⊢
  generalize firstMatch config steps c σ.size call σ clauses = found at h ⊢
  cases found <;> exact h

/-- Within the bounds, calling a predicate is entering a clause. -/
theorem plain_enter_of_resolve (hdepth : ¬ config.maxDepth ≤ depth)
    (hlimit : config.maxInferences.filter (· < state.inferences + 1) = none)
    (h : (resolve config clausesOf steps call depth state).Plain) :
    (enter config steps call (clausesOf call.indicator) depth state.continuation
      { state with inferences := state.inferences + 1 }).Plain := by
  rw [resolve, if_neg hdepth] at h
  dsimp only at h
  rw [hlimit] at h
  dsimp only at h
  generalize enter config steps call (clausesOf call.indicator) depth state.continuation
    { state with inferences := state.inferences + 1 } = entry at h ⊢
  cases entry <;> exact h

/-- A predicate is called on both. -/
theorem resolve_readsAs (hsound : state.Sound) (h : CallsAs r call barrier depth state.view e')
    (hreclaim : config.reclaimBindings = false)
    (hclauses : ∀ key, List.Forall₂ Clause.Fills (clausesOf key) (clausesOf' key))
    (hplain : (resolve config clausesOf steps (call.map (Occurrence.readBy r)) depth state).Plain) :
    Stage.ReadsAs
      (state.view.resolve config clausesOf steps (call.map (Occurrence.readBy r)) depth)
      (e'.resolve config clausesOf' steps call depth) := by
  refine h.resolve fun hdepth hlimit => ?_
  have hmatch := plain_firstMatch_of_enter (plain_enter_of_resolve hdepth hlimit hplain)
  rw [Call.indicator_map] at hmatch
  exact h.carries.firstMatch hreclaim hsound.holds (hclauses call.indicator) hmatch

/-- What a call asks for is done on both. -/
theorem perform_readsAs {goal : Goal} (hsound : state.Sound)
    (h : CallsAs r call barrier depth state.view e') (hreclaim : config.reclaimBindings = false)
    (hclauses : ∀ key, List.Forall₂ Clause.Fills (clausesOf key) (clausesOf' key))
    (hasks : Goal.Asks call goal)
    (hplain : (perform config clausesOf steps (goal.map (Occurrence.readBy r)) barrier depth
      state).Plain) :
    Stage.ReadsAs
      (state.view.perform config clausesOf steps (goal.map (Occurrence.readBy r)) barrier depth)
      (e'.perform config clausesOf' steps goal barrier depth) := by
  refine h.perform hasks (fun left right hgoal => ?_) fun hgoal => ?_
  · obtain ⟨σ, c, continuation, choices, inferences⟩ := state
    have hcarries := h.carries
    rcases hgoal with rfl | rfl <;> cases hasks <;>
      simp only [perform, Goal.map] at hplain <;>
      refine hcarries.unify hsound.holds ?_ <;>
      generalize ClauseResolution.unify .byOccurrence config.occursCheck steps σ c (left.readBy r)
        (right.readBy r) = ends at hplain ⊢ <;>
      cases ends <;> exact hplain
  · subst hgoal
    exact resolve_readsAs hsound h hreclaim hclauses hplain

/-- Doing what a call asks for reads as doing it with variables for the gaps. -/
theorem performCall_readsAs (hsound : state.Sound)
    (h : CallsAs r call barrier depth state.view e') (hreclaim : config.reclaimBindings = false)
    (hclauses : ∀ key, List.Forall₂ Clause.Fills (clausesOf key) (clausesOf' key))
    (hplain : (performCall config clausesOf steps (call.map (Occurrence.readBy r)) barrier depth
      state).Plain) :
    Stage.ReadsAs
      (state.view.performCall config clausesOf steps (call.map (Occurrence.readBy r)) barrier depth)
      (e'.performCall config clausesOf' steps call barrier depth) := by
  rw [performCall, Goal.ofCall_map (Occurrence.keepsCalls_readBy r)] at hplain
  rw [Exploration.performCall, Exploration.performCall,
    Goal.ofCall_map (Occurrence.keepsCalls_readBy r)]
  cases hgoal : Goal.ofCall call with
  | error cause => rfl
  | ok goal =>
    rw [hgoal] at hplain
    exact perform_readsAs hsound h hreclaim hclauses (Goal.asks_of_ofCall hgoal) hplain

/-- A step of a search that leaves no blank in the store leads to what the step of the other one
is read as. -/
theorem advance_readsAs (hsound : state.Sound) (h : state.view.ReadsAs e')
    (hreclaim : config.reclaimBindings = false)
    (hclauses : ∀ key, List.Forall₂ Clause.Fills (clausesOf key) (clausesOf' key))
    (hplain : (state.advance config clausesOf steps).Plain) :
    Stage.ReadsAs (state.advance config clausesOf steps).view
      (e'.advance config clausesOf' steps) := by
  rw [(advance_view config clausesOf steps hsound).2]
  obtain ⟨σ, c, continuation, choices, inferences⟩ := state
  obtain ⟨s', frames, branches', inferences'⟩ := e'
  obtain ⟨⟨r, hcarries, hframes⟩, hbranches, hinferences⟩ := h
  dsimp only [view] at hcarries hframes hbranches hinferences
  subst hframes
  cases frames with
  | nil => exact ⟨⟨r, hcarries, rfl⟩, hbranches, hinferences⟩
  | cons frame next =>
    have hnext : Sound ⟨σ, c, next.map (Frame.readBy r), choices, inferences⟩ :=
      ⟨hsound.holds, hsound.settles, hsound.supports⟩
    cases frame with
    | cutTo height =>
      have hrest : Exploration.ReadsAs ⟨σ.substitution c, next.map (Frame.readBy r), _, inferences⟩
        ⟨s', next, branches', inferences'⟩ := ⟨⟨r, hcarries.tail, rfl⟩, hbranches, hinferences⟩
      exact hrest.cut height
    | call call barrier depth =>
      exact performCall_readsAs hnext ⟨hcarries, rfl, hbranches, hinferences⟩ hreclaim hclauses
        hplain
    | goal goal barrier depth =>
      have hderef : σ.deref c (goal.readBy r) = (σ.substitution c).deref (goal.readBy r) :=
        Store.deref_eq hsound.settles _
      have hread := hcarries.ofOccurrence_deref (List.mem_singleton.2 rfl)
      rw [List.map_cons, Frame.readBy, Frame.map, advance, hderef, hread] at hplain
      rw [List.map_cons, Frame.readBy, Frame.map, view, Exploration.advance, Exploration.advance,
        hread]
      cases hcall : Call.ofOccurrence (s'.deref goal) with
      | error cause => rfl
      | ok call =>
        rw [hcall] at hplain
        exact performCall_readsAs hnext ⟨hcarries.followed hcall, rfl, hbranches, hinferences⟩
          hreclaim hclauses hplain

/-- A store had no blanks if entering a clause leaves none there. -/
theorem store_plain_of_enter (hsound : state.Sound) (hreclaim : config.reclaimBindings = false)
    (hplain : (enter config steps call clauses depth next state).Plain)
    (hends : enter config steps call clauses depth next state ≠ .unfinished) :
    state.store.Plain := by
  refine ClauseMatch.Plain.store hreclaim hsound.holds hsound.settles
    (plain_firstMatch_of_enter hplain) fun hunfinished => hends ?_
  obtain ⟨σ, c, continuation, choices, inferences⟩ := state
  dsimp only at hunfinished
  rw [enter]
  dsimp only
  rw [hunfinished]

/-- A store had no blanks if going back leaves none there. -/
theorem store_plain_of_backtrack (hsound : state.Sound) (hreclaim : config.reclaimBindings = false)
    (hplain : (state.backtrack config steps).Plain)
    (hends : state.backtrack config steps ≠ .unfinished) : state.store.Plain := by
  fun_induction backtrack config steps state with
  | case1 => exact hplain
  | case2 σ c continuation choices inferences context mark goal barrier depth next hlast =>
    change (config.reclaim mark σ).Plain at hplain
    rwa [Config.reclaim_eq hreclaim] at hplain
  | case3 σ c continuation choices inferences context mark call untried depth next hlast σ' state'
      henter =>
    have hreclaimed := (hsound.reclaim config hlast continuation).1
    have hstore := store_plain_of_enter hreclaimed hreclaim (by rw [henter]; exact hplain)
      (by rw [henter]; exact Entry.noConfusion)
    change (config.reclaim mark σ).Plain at hstore
    rwa [Config.reclaim_eq hreclaim] at hstore
  | case4 σ c continuation choices inferences context mark call untried depth next hlast σ' state'
      henter ih =>
    have hreclaimed := (hsound.reclaim config hlast continuation).1
    obtain ⟨hsound', _⟩ := enter_view config steps hreclaimed call untried depth next
    rw [henter] at hsound'
    have hstore := store_plain_of_enter hreclaimed hreclaim
      (by rw [henter]; exact ih hsound' hplain hends) (by rw [henter]; exact Entry.noConfusion)
    change (config.reclaim mark σ).Plain at hstore
    rwa [Config.reclaim_eq hreclaim] at hstore
  | case5 => exact absurd rfl hends

variable (e') in
/-- Clauses are entered on both: the same clause matches, or none does. -/
theorem enter_readsAs (hsound : state.Sound)
    (hbranches : List.Forall₂ Branch.ReadsAs state.view.branches e'.branches)
    (hinferences : e'.inferences = state.inferences)
    (h : Carries r state.view.substitution e'.substitution (.call call barrier depth :: next))
    (hreclaim : config.reclaimBindings = false)
    (hclauses : List.Forall₂ Clause.Fills clauses clauses')
    (hplain : (enter config steps (call.map (Occurrence.readBy r)) clauses depth
      (next.map (Frame.readBy r)) state).Plain) :
    (∃ e₁ e₁', (enter config steps (call.map (Occurrence.readBy r)) clauses depth
          (next.map (Frame.readBy r)) state).view = .proceed e₁ ∧
        e'.enter config steps call clauses' depth next = .proceed e₁' ∧ e₁.ReadsAs e₁') ∨
      ((enter config steps (call.map (Occurrence.readBy r)) clauses depth
          (next.map (Frame.readBy r)) state).view = .backtrack state.view ∧
        e'.enter config steps call clauses' depth next = .backtrack e') ∨
      (enter config steps (call.map (Occurrence.readBy r)) clauses depth
        (next.map (Frame.readBy r)) state).view = .unfinished := by
  rw [(enter_view config steps hsound _ clauses depth _).2]
  exact Exploration.enter_cases hbranches hinferences h
    (h.firstMatch hreclaim hsound.holds hclauses (plain_firstMatch_of_enter hplain))

/-- Going back without leaving a blank in the store leads to what going back in the other one is
read as. -/
theorem backtrack_readsAs (hsound : state.Sound) {branches' : List Branch}
    (hbranches : List.Forall₂ Branch.ReadsAs state.view.branches branches')
    (hreclaim : config.reclaimBindings = false)
    (hplain : (state.backtrack config steps).Plain) :
    Exploration.Return.ReadsAs (state.backtrack config steps).view
      (Exploration.backtrack config steps state.inferences branches') := by
  fun_induction backtrack config steps state generalizing branches' with
  | case1 σ c continuation choices inferences hlast =>
    have hempty : choices = #[] := Array.back?_eq_none_iff.1 hlast
    subst hempty
    cases hbranches
    rfl
  | case2 σ c continuation choices inferences context mark goal barrier depth next hlast =>
    obtain ⟨_, branches, hsplit, hview⟩ := hsound.reclaim config hlast
      (.goal goal barrier depth :: next)
    rw [hsplit] at hbranches
    cases hbranches with
    | @cons _ branch' _ rest hbranch hrest =>
    obtain ⟨s', alternative'⟩ := branch'
    obtain ⟨r, hcarries, halternative⟩ := hbranch
    cases halternative
    rw [Resumption.view, hview]
    exact ⟨⟨r, hcarries, rfl⟩, hrest, rfl⟩
  | case3 σ c continuation choices inferences context mark call untried depth next hlast σ' state'
      henter =>
    obtain ⟨hreclaimed, branches, hsplit, hview⟩ := hsound.reclaim config hlast continuation
    rw [hsplit] at hbranches
    cases hbranches with
    | @cons _ branch' _ rest hbranch hrest =>
    obtain ⟨s', alternative'⟩ := branch'
    obtain ⟨r, hcarries, halternative⟩ := hbranch
    cases halternative with
    | @clauses _ untried' call' depth next' huntried =>
    have hentry := enter_readsAs ⟨s', next', rest, inferences⟩ hreclaimed
      (by rw [hview]; exact hrest) rfl (by rw [hview]; exact hcarries) hreclaim huntried
      (by rw [henter]; exact hplain)
    rw [henter] at hentry
    rw [Exploration.backtrack_clauses config steps next']
    rcases hentry with ⟨_, _, hwild, hfilled, hreads⟩ | ⟨hwild, _⟩ | hwild
    · cases hwild
      rw [hfilled]
      exact hreads
    · cases hwild
    · cases hwild
  | case4 σ c continuation choices inferences context mark call untried depth next hlast σ' state'
      henter ih =>
    obtain ⟨hreclaimed, branches, hsplit, hview⟩ := hsound.reclaim config hlast continuation
    obtain ⟨hsound', _⟩ := enter_view config steps hreclaimed call untried depth next
    rw [henter] at hsound'
    rw [hsplit] at hbranches
    cases hbranches with
    | @cons _ branch' _ rest hbranch hrest =>
    obtain ⟨s', alternative'⟩ := branch'
    obtain ⟨r, hcarries, halternative⟩ := hbranch
    cases halternative with
    | @clauses _ untried' call' depth next' huntried =>
    by_cases hends : state'.backtrack config steps = .unfinished
    · rw [hends]
      trivial
    have hentry := enter_readsAs ⟨s', next', rest, inferences⟩ hreclaimed
      (by rw [hview]; exact hrest) rfl (by rw [hview]; exact hcarries) hreclaim huntried
      (by rw [henter]; exact store_plain_of_backtrack hsound' hreclaim hplain hends)
    rw [henter] at hentry
    rw [Exploration.backtrack_clauses config steps next']
    rcases hentry with ⟨_, _, hwild, _, _⟩ | ⟨hwild, hfilled⟩ | hwild
    · cases hwild
    · have hmissed : state'.view = _ := Stage.backtrack.inj hwild
      rw [hview] at hmissed
      have hbranches' : state'.view.branches = branches := by rw [hmissed]
      have hinferences : state'.inferences = inferences := congrArg Exploration.inferences hmissed
      rw [hfilled, ← hinferences]
      exact ih hsound' (by rw [hbranches']; exact hrest) hplain
    · cases hwild
  | case5 σ c continuation choices inferences context mark call untried depth next hlast σ'
      henter => trivial

end Search

end ClauseResolution
