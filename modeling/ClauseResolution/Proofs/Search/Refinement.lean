import ClauseResolution.Engine.Solve
import ClauseResolution.Proofs.Search.Nesting
import ClauseResolution.Proofs.Search.View

/-!
# A search finds what the recursion finds

What is seen of a search that is granted more and more steps, and the trace of its goal
by deeper and deeper recursion, approach the same trace. On the one hand each step of
the search takes a step off the meaning of its state, so nothing is seen that the
recursion does not have. On the other hand every finite part of the meaning is used up
after finitely many steps. So the answers come in the same order, and the search ends
exactly if the recursion does, in the same way.
-/

namespace ClauseResolution

section Order

variable {config : Config} {clausesOf : String → List Clause} {m n j k : Nat}

/-- What is passed on is further when the trace and what follows it are. -/
theorem Trace.pass_le_pass {t u : Trace Unit} {next next' : Substitution → Trace Nat}
    (barrier : Nat) (h : t ≤ u) (hnext : ∀ s, next s ≤ next' s) :
    t.pass barrier next ≤ u.pass barrier next' :=
  fold_le_fold (fun s _ _ => orElse_le_orElse (hnext s)) (le_refl _) (fun _ => le_refl _) h

/-- Frames are traced further when more steps are granted. -/
theorem Frame.traceAll_le (hmn : m ≤ n) (frames : List Frame) (s : Substitution) :
    Frame.traceAll config clausesOf m frames s ≤ Frame.traceAll config clausesOf n frames s := by
  induction frames generalizing s with
  | nil => exact le_refl _
  | cons frame frames ih =>
    cases frame with
    | goal goal barrier nesting =>
      exact Trace.pass_le_pass barrier (Occurrence.trace_le (Call.trace_le hmn) goal s) ih
    | call call barrier nesting => exact Trace.pass_le_pass barrier (Call.trace_le hmn call s) ih
    | cutTo height => exact Trace.step_le_step.2 (Trace.orElse_le_orElse (ih s) (le_refl _))

/-- A branch is traced further when more is granted. -/
theorem Branch.trace_le (hmn : m ≤ n) (hjk : j ≤ k) (height : Nat) (branch : Branch) :
    branch.trace config clausesOf m j height ≤ branch.trace config clausesOf n k height := by
  match branch with
  | ⟨s, .goal goal barrier nesting next⟩ => exact Frame.traceAll_le hmn _ s
  | ⟨s, .clauses call untried nesting next⟩ =>
    exact Trace.pass_le_pass height (Call.traceClauses_le hjk (Call.trace_le hmn) call s untried)
      (Frame.traceAll_le hmn next)

/-- The branches to return to are traced further when more is granted. -/
theorem Branch.fallback_le (hmn : m ≤ n) (hjk : j ≤ k) (branches : List Branch) (height : Nat) :
    Branch.fallback config clausesOf m j branches height ≤
      Branch.fallback config clausesOf n k branches height := by
  induction branches generalizing height with
  | nil => exact le_refl _
  | cons branch branches ih =>
    rw [fallback, fallback]
    split
    · exact ih height
    · exact Trace.finish_le_finish (ih _) ih (branch.trace_le hmn hjk _)

namespace Exploration

/-- The meaning of a state is found by running its first goal as all others. -/
theorem trace_eq_traceFrom (e : Exploration) :
    e.trace config clausesOf n k =
      e.traceFrom config clausesOf n k (Call.trace config clausesOf n) := by
  obtain ⟨s, continuation, branches, inferences⟩ := e
  match continuation with
  | [] | .cutTo _ :: _ | .call _ _ _ :: _ | .goal _ _ _ :: _ => rfl

/-- A search is traced further when more is granted and calls are traced further. -/
theorem traceFrom_le {calls calls' : Call → Substitution → Trace Unit}
    (hcalls : ∀ call s, calls call s ≤ calls' call s) (hmn : m ≤ n) (hjk : j ≤ k)
    (e : Exploration) :
    e.traceFrom config clausesOf m j calls ≤ e.traceFrom config clausesOf n k calls' := by
  refine Trace.finish_le_finish (Branch.fallback_le hmn hjk _ _) (Branch.fallback_le hmn hjk _) ?_
  obtain ⟨s, continuation, branches, inferences⟩ := e
  match continuation with
  | [] => exact le_refl _
  | .cutTo height :: next => exact Frame.traceAll_le hmn _ s
  | .call call barrier nesting :: next =>
    exact Trace.pass_le_pass barrier (hcalls call s) (Frame.traceAll_le hmn next)
  | .goal goal barrier nesting :: next =>
    exact Trace.pass_le_pass barrier (Occurrence.trace_le hcalls goal s)
      (Frame.traceAll_le hmn next)

/-- A search is traced further when more is granted. -/
theorem trace_le (hmn : m ≤ n) (hjk : j ≤ k) (e : Exploration) :
    e.trace config clausesOf m j ≤ e.trace config clausesOf n k := by
  rw [trace_eq_traceFrom, trace_eq_traceFrom]
  exact traceFrom_le (Call.trace_le hmn) hmn hjk e

variable {e : Exploration}

/-- A step that exceeds no limit shows nothing that deeper recursion does not have. -/
theorem advance_le_trace (h : e.Nested) (hlimit : ¬ (e.advance config clausesOf k).Limited)
    (hkn : k ≤ n) :
    (e.advance config clausesOf k).trace config clausesOf n k ≤
      e.trace config clausesOf (n + 1) (n + 1) := by
  rw [trace_advance config clausesOf n k e h hlimit, trace_eq_traceFrom]
  exact traceFrom_le (Call.traceWith_le hkn fun _ _ => le_refl _) (Nat.le_succ n)
    (hkn.trans (Nat.le_succ n)) e

/-- The meaning of a state has nothing that the next step does not leave. -/
theorem trace_le_advance (h : e.Nested) (hlimit : ¬ (e.advance config clausesOf k).Limited)
    (hnk : n ≤ k) :
    e.trace config clausesOf n k ≤ (e.advance config clausesOf k).trace config clausesOf n k := by
  rw [trace_advance config clausesOf n k e h hlimit, trace_eq_traceFrom]
  refine traceFrom_le (fun call s => ?_) (le_refl n) (le_refl k) e
  cases n with
  | zero => exact Trace.unfinished_le _
  | succ n => exact Call.traceWith_le (Nat.le_of_succ_le hnk) (Call.trace_le (Nat.le_succ n)) call s

end Exploration

end Order

/-- What is seen after going back. -/
def Exploration.Return.follow (rest : Exploration → Trace Empty) :
    Exploration.Return → Trace Empty
  | .resumed e => rest e
  | .exhausted _ => .exhausted
  | .unfinished => .unfinished

/-- What is seen of a step and after it. -/
def Stage.follow (config : Config) (steps : Nat) (rest : Exploration → Trace Empty) :
    Stage → Trace Empty
  | .proceed e => .step (rest e)
  | .backtrack e =>
    .step ((Exploration.backtrack config steps e.inferences e.branches).follow rest)
  | .solution e => .answer e.substitution
    ((Exploration.backtrack config steps e.inferences e.branches).follow rest)
  | .error cause => .step (.error cause)
  | .unfinished => .step .unfinished

/-- What is seen of an exploration within a number of steps. -/
def Exploration.observe (config : Config) (clausesOf : String → List Clause) :
    Nat → Exploration → Trace Empty
  | 0, _ => .unfinished
  | steps + 1, e =>
    (e.advance config clausesOf steps).follow config steps (observe config clausesOf steps)

/-- A trace ends because a limit is exceeded. -/
def Trace.Limited (t : Trace Empty) : Prop :=
  ∃ cause, t.result = some (.error cause) ∧ cause.IsLimit

namespace Exploration

variable {config : Config} {clausesOf : String → List Clause} {n : Nat} {e : Exploration}

/-- More is seen when more steps are granted. -/
theorem observe_le_observe {j k : Nat} (hjk : j ≤ k) :
    e.observe config clausesOf j ≤ e.observe config clausesOf k := by
  induction j generalizing e k with
  | zero => exact Trace.unfinished_le _
  | succ j ih =>
    obtain ⟨k, rfl⟩ : ∃ i, k = i + 1 := ⟨k - 1, by omega⟩
    have hjk : j ≤ k := by omega
    have hback : ∀ inferences branches,
        (backtrack config j inferences branches).follow (observe config clausesOf j) ≤
          (backtrack config k inferences branches).follow (observe config clausesOf k) := by
      intro inferences branches
      cases hreturn : backtrack config j inferences branches with
      | unfinished => exact Trace.unfinished_le _
      | exhausted count =>
        rw [backtrack_mono hjk (by rw [hreturn]; exact Return.noConfusion), hreturn]
        exact le_refl _
      | resumed e' =>
        rw [backtrack_mono hjk (by rw [hreturn]; exact Return.noConfusion), hreturn]
        exact ih hjk
    rw [observe, observe]
    cases hadvance : e.advance config clausesOf j with
    | unfinished =>
      cases hmore : e.advance config clausesOf k with
      | solution e' => cases hadvance.symm.trans (advance_of_eq_solution hmore)
      | proceed | backtrack | error | unfinished =>
        exact Trace.step_le_step.2 (Trace.unfinished_le _)
    | proceed e' | backtrack e' | solution e' | error cause =>
      rw [advance_mono hjk (by rw [hadvance]; exact Stage.noConfusion), hadvance]
      first
      | exact Trace.step_le_step.2 (ih hjk)
      | exact Trace.step_le_step.2 (hback _ _)
      | exact (Trace.answer_le_answer _).2 (hback _ _)
      | exact le_refl _

/-- What is seen after going back is part of the meaning of the branches. -/
theorem follow_le_fallback {k inferences : Nat} {branches : List Branch} (hkn : k ≤ n)
    (hbranches : Branch.AllNested branches) {rest : Exploration → Trace Empty}
    (hrest : ∀ e, e.Nested → backtrack config k inferences branches = .resumed e →
      rest e ≤ e.trace config clausesOf n n) :
    (backtrack config k inferences branches).follow rest ≤
      Branch.fallback config clausesOf n n branches branches.length := by
  rw [← trace_backtrack config clausesOf n n inferences hbranches]
  cases hback : backtrack config k inferences branches with
  | unfinished => exact Trace.unfinished_le _
  | exhausted count =>
    rw [backtrack_mono hkn (by rw [hback]; exact Return.noConfusion), hback]
    exact le_refl _
  | resumed e =>
    rw [backtrack_mono hkn (by rw [hback]; exact Return.noConfusion), hback]
    exact hrest e (backtrack_nested hbranches hback) hback

/-- If no limit is seen to be exceeded, the next step exceeds none. -/
theorem not_limited_advance {k : Nat} (hlimit : ¬ (e.observe config clausesOf (k + 1)).Limited) :
    ¬ (e.advance config clausesOf k).Limited := by
  intro hstage
  apply hlimit
  rw [observe]
  cases hadvance : e.advance config clausesOf k <;> rw [hadvance] at hstage <;>
    try exact hstage.elim
  exact ⟨_, rfl, hstage⟩

/-- What is seen of an exploration is part of its meaning. -/
theorem observe_le_trace {k : Nat} (h : e.Nested) (hkn : k ≤ n)
    (hlimit : ¬ (e.observe config clausesOf k).Limited) :
    e.observe config clausesOf k ≤ e.trace config clausesOf n n := by
  induction k generalizing e n with
  | zero => exact Trace.unfinished_le _
  | succ k ih =>
    obtain ⟨n, rfl⟩ : ∃ i, n = i + 1 := ⟨n - 1, by omega⟩
    have hkn : k ≤ n := by omega
    have hnested : (e.advance config clausesOf k).Nested := advance_nested h
    have hstage : ¬ (e.advance config clausesOf k).Limited := not_limited_advance hlimit
    have hback : ∀ inferences branches, Branch.AllNested branches →
        ¬ ((backtrack config k inferences branches).follow
          (observe config clausesOf k)).Limited →
        (backtrack config k inferences branches).follow (observe config clausesOf k) ≤
          Branch.fallback config clausesOf n n branches branches.length := by
      intro inferences branches hbranches hfollow
      refine follow_le_fallback hkn hbranches fun e' hnested' hresumed => ?_
      rw [hresumed] at hfollow
      exact ih hnested' hkn hfollow
    rw [observe] at hlimit ⊢
    cases hadvance : e.advance config clausesOf k with
    | unfinished | error cause =>
      have hle := advance_le_trace h hstage hkn
      rw [hadvance] at hle
      exact hle
    | proceed e' | backtrack e' | solution e' =>
      have hmore := advance_mono hkn (by rw [hadvance]; exact Stage.noConfusion)
      rw [hadvance] at hmore hlimit hnested hstage
      have hle := advance_le_trace h (by rw [hmore]; exact hstage) (le_refl n)
      rw [hmore] at hle
      refine le_trans ?_ hle
      first
      | exact Trace.step_le_step.2 (ih hnested hkn hlimit)
      | exact Trace.step_le_step.2 (hback _ _ hnested hlimit)
      | exact (Trace.answer_le_answer _).2 (hback _ _ hnested hlimit)

/-- A step that was not finished is seen as one that goes on. -/
theorem step_le_observe {m k : Nat} (h : e.Nested) (hmk : m ≤ k)
    (hadvance : e.advance config clausesOf m = .unfinished)
    (hlimit : ¬ (e.advance config clausesOf k).Limited) :
    .step .unfinished ≤ e.observe config clausesOf (k + 1) := by
  have hle : (e.advance config clausesOf m).trace config clausesOf 0 m ≤
      (e.advance config clausesOf k).trace config clausesOf 0 k := by
    rw [trace_advance config clausesOf 0 m e h (by rw [hadvance]; exact id),
      trace_advance config clausesOf 0 k e h hlimit]
    exact traceFrom_le (Call.traceWith_le hmk fun _ _ => le_refl _) (le_refl 0) hmk e
  rw [hadvance] at hle
  rw [observe]
  cases hmore : e.advance config clausesOf k <;> rw [hmore] at hle
  case solution => cases hle
  all_goals exact Trace.step_le_step.2 (Trace.unfinished_le _)

/-- What the branches mean is seen after finitely many steps if this holds of the state
that is taken up. -/
theorem le_follow {m inferences : Nat} {branches : List Branch} {t : Trace Empty}
    (hbranches : Branch.AllNested branches)
    (hfree : ∀ k, m ≤ k → ¬ ((backtrack config k inferences branches).follow
      (observe config clausesOf k)).Limited)
    (hle : t ≤ Branch.fallback config clausesOf n m branches branches.length)
    (hrest : ∀ e' : Exploration, t ≤ e'.trace config clausesOf n m → e'.Nested →
      (∃ bound, ∀ k, bound ≤ k → ¬ (e'.observe config clausesOf k).Limited) →
      ∃ bound, ∀ k, bound ≤ k → t ≤ e'.observe config clausesOf k) :
    ∃ bound, ∀ k, bound ≤ k →
      t ≤ (backtrack config k inferences branches).follow (observe config clausesOf k) := by
  rw [← trace_backtrack config clausesOf n m inferences hbranches] at hle
  cases hback : backtrack config m inferences branches with
  | unfinished =>
    rw [hback] at hle
    exact ⟨0, fun k _ => hle.trans (Trace.unfinished_le _)⟩
  | exhausted count =>
    rw [hback] at hle
    refine ⟨m, fun k hk => ?_⟩
    rw [backtrack_mono hk (by rw [hback]; exact Return.noConfusion), hback]
    exact hle
  | resumed e' =>
    rw [hback] at hle
    have hmore : ∀ k, m ≤ k → backtrack config k inferences branches = .resumed e' := by
      intro k hk
      rw [backtrack_mono hk (by rw [hback]; exact Return.noConfusion), hback]
    have hfree' : ∀ k, m ≤ k → ¬ (e'.observe config clausesOf k).Limited := by
      intro k hk
      have := hfree k hk
      rwa [hmore k hk] at this
    obtain ⟨bound, hbound⟩ := hrest e' hle (backtrack_nested hbranches hback) ⟨m, hfree'⟩
    refine ⟨max bound m, fun k hk => ?_⟩
    rw [hmore k (le_of_max_le_right hk)]
    exact hbound k (le_of_max_le_left hk)

/-- With enough steps granted, the meaning of a state is what the next step leaves. -/
theorem exists_le_advance {m : Nat} {t : Trace Empty} (hnm : n ≤ m)
    (hle : t ≤ e.trace config clausesOf n m) (h : e.Nested)
    (hlimit : ∃ bound, ∀ k, bound ≤ k → ¬ (e.observe config clausesOf k).Limited) :
    ∃ m', n ≤ m' ∧ (∀ k, m' ≤ k → ¬ (e.observe config clausesOf (k + 1)).Limited) ∧
      t ≤ (e.advance config clausesOf m').trace config clausesOf n m' := by
  obtain ⟨bound, hbound⟩ := hlimit
  have hfree : ∀ k, max m bound ≤ k → ¬ (e.observe config clausesOf (k + 1)).Limited :=
    fun k hk => hbound (k + 1) ((le_of_max_le_right hk).trans (Nat.le_succ k))
  have hnm' : n ≤ max m bound := hnm.trans (le_max_left m bound)
  have hdeeper : t ≤ e.trace config clausesOf n (max m bound) :=
    hle.trans (trace_le (le_refl n) (le_max_left m bound) e)
  refine ⟨max m bound, hnm', hfree, hdeeper.trans ?_⟩
  exact trace_le_advance h (not_limited_advance (hfree _ (le_refl _))) hnm'

/-- A step that is finished is seen, whatever more is granted. -/
theorem observe_succ {m k : Nat} (hmk : m ≤ k) (h : e.advance config clausesOf m ≠ .unfinished) :
    e.observe config clausesOf (k + 1) =
      (e.advance config clausesOf m).follow config k (observe config clausesOf k) := by
  rw [observe, advance_mono hmk h]

/-- What is seen from some number of steps on is seen when one more is granted. -/
theorem exists_le_observe_of_succ {t : Trace Empty}
    (h : ∃ bound, ∀ k, bound ≤ k → t ≤ e.observe config clausesOf (k + 1)) :
    ∃ bound, ∀ k, bound ≤ k → t ≤ e.observe config clausesOf k := by
  obtain ⟨bound, hbound⟩ := h
  refine ⟨bound + 1, fun k hk => ?_⟩
  obtain ⟨k, rfl⟩ : ∃ i, k = i + 1 := ⟨k - 1, by omega⟩
  exact hbound k (by omega)

/-- What is seen after a step that is finished is seen before it, and so are the limits. -/
theorem exists_le_observe_of_follow {m : Nat} {t : Trace Empty} {stage : Stage}
    (hadvance : e.advance config clausesOf m = stage) (hne : stage ≠ .unfinished)
    (hfree : ∀ k, m ≤ k → ¬ (e.observe config clausesOf (k + 1)).Limited)
    (hseen : (∀ k, m ≤ k → ¬ (stage.follow config k (observe config clausesOf k)).Limited) →
      ∃ bound, ∀ k, bound ≤ k → t ≤ stage.follow config k (observe config clausesOf k)) :
    ∃ bound, ∀ k, bound ≤ k → t ≤ e.observe config clausesOf k := by
  have hsucc : ∀ k, m ≤ k → e.observe config clausesOf (k + 1) =
      stage.follow config k (observe config clausesOf k) := by
    intro k hk
    rw [observe_succ hk (by rwa [hadvance]), hadvance]
  obtain ⟨bound, hbound⟩ := hseen fun k hk => by
    rw [← hsucc k hk]
    exact hfree k hk
  refine exists_le_observe_of_succ ⟨max bound m, fun k hk => ?_⟩
  rw [hsucc k (le_of_max_le_right hk)]
  exact hbound k (le_of_max_le_left hk)

/-- Every part of the meaning of a state is seen after finitely many steps. -/
theorem le_observe {m : Nat} {t : Trace Empty} (hnm : n ≤ m)
    (hle : t ≤ e.trace config clausesOf n m) (h : e.Nested)
    (hlimit : ∃ bound, ∀ k, bound ≤ k → ¬ (e.observe config clausesOf k).Limited) :
    ∃ bound, ∀ k, bound ≤ k → t ≤ e.observe config clausesOf k := by
  induction t generalizing e m with
  | unfinished => exact ⟨0, fun k _ => Trace.unfinished_le _⟩
  | exhausted | cut | error =>
    obtain ⟨m', _, _, hle'⟩ := exists_le_advance hnm hle h hlimit
    cases hadvance : e.advance config clausesOf m' <;> rw [hadvance] at hle' <;> cases hle'
  | step t ih =>
    obtain ⟨m', hnm', hfree, hle'⟩ := exists_le_advance hnm hle h hlimit
    have hnested : (e.advance config clausesOf m').Nested := advance_nested h
    cases hadvance : e.advance config clausesOf m' with
    | solution e' =>
      rw [hadvance] at hle'
      cases hle'
    | unfinished =>
      rw [hadvance] at hle'
      refine exists_le_observe_of_succ
        ⟨m', fun k hk => hle'.trans (step_le_observe h hk hadvance ?_)⟩
      exact not_limited_advance (hfree k hk)
    | error cause =>
      rw [hadvance] at hle'
      exact exists_le_observe_of_follow hadvance Stage.noConfusion hfree fun _ =>
        ⟨0, fun k _ => hle'⟩
    | proceed e' =>
      rw [hadvance] at hle' hnested
      refine exists_le_observe_of_follow hadvance Stage.noConfusion hfree fun hfree' => ?_
      obtain ⟨bound, hbound⟩ := ih hnm' (Trace.step_le_step.1 hle') hnested ⟨m', hfree'⟩
      exact ⟨bound, fun k hk => Trace.step_le_step.2 (hbound k hk)⟩
    | backtrack e' =>
      rw [hadvance] at hle' hnested
      refine exists_le_observe_of_follow hadvance Stage.noConfusion hfree fun hfree' => ?_
      obtain ⟨bound, hbound⟩ := le_follow hnested hfree' (Trace.step_le_step.1 hle')
        fun e'' hle'' => ih hnm' hle''
      exact ⟨bound, fun k hk => Trace.step_le_step.2 (hbound k hk)⟩
  | answer s t ih =>
    obtain ⟨m', hnm', hfree, hle'⟩ := exists_le_advance hnm hle h hlimit
    have hnested : (e.advance config clausesOf m').Nested := advance_nested h
    cases hadvance : e.advance config clausesOf m' with
    | unfinished | error | proceed | backtrack =>
      rw [hadvance] at hle'
      cases hle'
    | solution e' =>
      rw [hadvance] at hle' hnested
      refine exists_le_observe_of_follow hadvance Stage.noConfusion hfree fun hfree' => ?_
      cases hle' with
      | answer _ hle' =>
        obtain ⟨bound, hbound⟩ := le_follow hnested hfree' hle' fun e'' hle'' => ih hnm' hle''
        exact ⟨bound, fun k hk => (Trace.answer_le_answer _).2 (hbound k hk)⟩

end Exploration

end ClauseResolution
