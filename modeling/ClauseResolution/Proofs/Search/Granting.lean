import ClauseResolution.Engine.Solve
import ClauseResolution.Proofs.Unification.Steps

/-!
# Granting more steps

All steps of a search are counted against a number granted in advance. Only running out of
them depends on this number: what ends within some steps ends in the same way, with the same
store, when more are granted.
-/

namespace ClauseResolution

section Granting

variable {config : Config} {clausesOf : String → List Clause} {m n : Nat} {σ : Store}
  {c : Context}

/-- Unifying with a head ends in the same way when more steps are granted. -/
theorem Call.unifyHead_mono {call : Call} {head : Occurrence} (hmn : m ≤ n)
    (h : call.unifyHead config m σ c head ≠ .unfinished) :
    call.unifyHead config n σ c head = call.unifyHead config m σ c head := by
  unfold unifyHead unifyAll at h ⊢
  split
  · next functor args varCount hterm =>
    simp only [hterm] at h
    split
    · next hfits =>
      rw [if_pos hfits] at h
      exact unifyPairs_mono hmn h
    · rfl
  · rfl

/-- The first clause that matches is the same when more steps are granted. -/
theorem firstMatch_mono {mark : Nat} {call : Call} {clauses : List Clause} (hmn : m ≤ n)
    (h : firstMatch config m c mark call σ clauses ≠ .unfinished) :
    firstMatch config n c mark call σ clauses = firstMatch config m c mark call σ clauses := by
  induction clauses generalizing σ with
  | nil => rfl
  | cons clause clauses ih =>
    rw [firstMatch] at h ⊢
    rw [firstMatch]
    cases hhead : call.unifyHead config m σ (clause.rename c).context (clause.rename c).head with
    | unfinished => simp [hhead] at h
    | unified τ d =>
      have hmore := Call.unifyHead_mono hmn (by rw [hhead]; exact Unified.noConfusion)
      simp only [hmore, hhead]
    | clash τ =>
      have hmore := Call.unifyHead_mono hmn (by rw [hhead]; exact Unified.noConfusion)
      simp only [hhead] at h
      simp only [hmore, hhead]
      exact ih h

namespace Search

variable {call : Call} {clauses : List Clause} {depth barrier : Nat} {next : List Frame}
  {goal : Goal} {state : Search}

/-- Entering a clause ends in the same way when more steps are granted. -/
theorem enter_mono (hmn : m ≤ n)
    (h : enter config m call clauses depth next state ≠ .unfinished) :
    enter config n call clauses depth next state =
      enter config m call clauses depth next state := by
  rw [enter] at h ⊢
  rw [enter]
  dsimp only at h ⊢
  cases hmatch : firstMatch config m state.context state.store.size call state.store clauses with
  | unfinished => simp [hmatch] at h
  | found τ d body isFact untried =>
    rw [firstMatch_mono hmn (by rw [hmatch]; exact ClauseMatch.noConfusion), hmatch]
  | missing τ => rw [firstMatch_mono hmn (by rw [hmatch]; exact ClauseMatch.noConfusion), hmatch]

/-- Doing what a goal asks for ends in the same way when more steps are granted. -/
theorem perform_mono (hmn : m ≤ n)
    (h : perform config clausesOf m goal barrier depth state ≠ .unfinished) :
    perform config clausesOf n goal barrier depth state =
      perform config clausesOf m goal barrier depth state := by
  cases goal with
  | unify left right | differ left right =>
    simp only [perform] at h ⊢
    cases hunify : ClauseResolution.unify .byOccurrence config.occursCheck m state.store
      state.context left right
    all_goals rw [hunify] at h
    case unfinished => simp at h
    all_goals
      have hmore : ClauseResolution.unify .byOccurrence config.occursCheck n state.store
            state.context left right =
          ClauseResolution.unify .byOccurrence config.occursCheck m state.store
            state.context left right :=
        unifyPairs_mono hmn (by
          change ClauseResolution.unify .byOccurrence config.occursCheck m state.store
            state.context left right ≠ _
          rw [hunify]
          exact Unified.noConfusion)
      rw [hmore, hunify]
  | predicate call =>
    simp only [perform, resolve] at h ⊢
    split
    · rfl
    · next hdepth =>
      rw [if_neg hdepth] at h
      split
      · rfl
      · next hlimit =>
        simp only [hlimit] at h
        rw [enter_mono hmn]
        intro hunfinished
        simp [hunfinished] at h
  | truth | failure | cut | both | either | ifThen | negation | call => rfl

/-- Doing what a call asks for ends in the same way when more steps are granted. -/
theorem performCall_mono (hmn : m ≤ n)
    (h : performCall config clausesOf m call barrier depth state ≠ .unfinished) :
    performCall config clausesOf n call barrier depth state =
      performCall config clausesOf m call barrier depth state := by
  rw [performCall] at h ⊢
  rw [performCall]
  cases hgoal : Goal.ofCall call with
  | error error => rfl
  | ok goal =>
    simp only [hgoal] at h
    exact perform_mono hmn h

/-- A step that ends does so in the same way when more steps are granted. -/
theorem advance_mono (hmn : m ≤ n) (h : state.advance config clausesOf m ≠ .unfinished) :
    state.advance config clausesOf n = state.advance config clausesOf m := by
  obtain ⟨σ, c, continuation, choices, inferences⟩ := state
  match continuation with
  | [] => rfl
  | .cutTo height :: next => rfl
  | .call call barrier depth :: next =>
    rw [advance] at h ⊢
    rw [advance]
    exact performCall_mono hmn h
  | .goal goal barrier depth :: next =>
    rw [advance] at h ⊢
    rw [advance]
    cases hcall : Call.ofOccurrence (σ.deref c goal) with
    | error error => rfl
    | ok call =>
      simp only [hcall] at h
      exact performCall_mono hmn h

/-- So does going back. -/
theorem backtrack_mono (hmn : m ≤ n) (h : state.backtrack config m ≠ .unfinished) :
    state.backtrack config n = state.backtrack config m := by
  fun_induction backtrack config m state with
  | case1 σ c continuation choices inferences hlast => simp [backtrack_eq, hlast]
  | case2 σ c continuation choices inferences context mark goal barrier depth next hlast
      σ' =>
    simp [backtrack_eq, hlast, σ']
  | case3 σ c continuation choices inferences context mark call untried depth next hlast σ' state'
      henter =>
    have hmore := enter_mono hmn (by rw [henter]; exact Entry.noConfusion)
    rw [henter] at hmore
    simp [backtrack_eq, hlast, hmore, σ']
  | case4 σ c continuation choices inferences context mark call untried depth next hlast σ' state'
      henter ih =>
    have hmore := enter_mono hmn (by rw [henter]; exact Entry.noConfusion)
    rw [henter] at hmore
    rw [backtrack_eq, hlast]
    simp only [hmore, ih h, σ']
  | case5 => exact absurd rfl h

end Search

/-- How a turn ends the search, if it does so. -/
def Turn.ending? {α : Type} : Turn α → Option Ending
  | .going _ => none
  | .ended report => some report.ending

namespace Search

variable {α : Type} {index : ClauseIndex} {vars : List Var} {listener : Listener α}
  {p : Progress α}

/-- Going back ends in the same way when more steps are granted. -/
theorem retry_mono (hmn : m ≤ n) (h : (retry config m p).ending? ≠ some .unfinished) :
    retry config n p = retry config m p := by
  obtain ⟨count, state, env, value⟩ := p
  rw [retry] at h ⊢
  rw [retry]
  have hback : state.backtrack config m ≠ .unfinished := by
    intro hunfinished
    simp [hunfinished, Turn.ending?] at h
  rw [backtrack_mono hmn hback]

/-- A turn in which the steps suffice is the same when more are granted. -/
theorem turn_mono (hmn : m ≤ n)
    (h : (turn config index vars listener m p).ending? ≠ some .unfinished) :
    turn config index vars listener n p = turn config index vars listener m p := by
  obtain ⟨count, state, env, value⟩ := p
  rw [turn] at h ⊢
  rw [turn]
  by_cases hinterrupted : env.interrupted = true
  · rw [if_pos hinterrupted, if_pos hinterrupted]
  rw [if_neg hinterrupted] at h ⊢
  rw [if_neg hinterrupted]
  have hadvance : state.advance config (index.matching env.providers) m ≠ .unfinished := by
    intro hunfinished
    simp [hunfinished, Turn.ending?] at h
  rw [advance_mono hmn hadvance]
  cases hmove : state.advance config (index.matching env.providers) m with
  | proceed | error | unfinished => rfl
  | backtrack last =>
    rw [hmove] at h
    exact retry_mono hmn h
  | solution last =>
    rw [hmove] at h
    dsimp only at h ⊢
    cases hreply : listener (last.solution vars) env value with
    | mk signal answer =>
      rw [hreply] at h
      cases signal with
      | abort => rfl
      | «continue» => exact retry_mono hmn h

/-- A search that ends does so in the same way when more steps are granted. -/
theorem run_mono (hmn : m ≤ n)
    (h : (run config index vars listener m p).ending ≠ .unfinished) :
    run config index vars listener n p = run config index vars listener m p := by
  induction m generalizing n p with
  | zero => exact absurd rfl h
  | succ m ih =>
    obtain ⟨n, rfl⟩ := Nat.exists_eq_add_of_le' (Nat.one_le_iff_ne_zero.2 (by omega : n ≠ 0))
    have hle : m ≤ n := by omega
    rw [run] at h ⊢
    rw [run]
    have hturn : (turn config index vars listener m p).ending? ≠ some .unfinished := by
      intro hunfinished
      cases hnext : turn config index vars listener m p with
      | going q => simp [hnext, Turn.ending?] at hunfinished
      | ended report =>
        rw [hnext] at h hunfinished
        exact h (Option.some.inj hunfinished)
    rw [turn_mono hle hturn]
    cases hnext : turn config index vars listener m p with
    | ended report => rfl
    | going q =>
      rw [hnext] at h
      exact ih hle h

end Search

end Granting

end ClauseResolution
