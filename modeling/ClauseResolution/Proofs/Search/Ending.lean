import ClauseResolution.Proofs.Search.Invariant
import ClauseResolution.Proofs.Unification.Unchecked

/-!
# Steps of a search end

A step of a search, and going back, end when all unifications in them do. Unification ends
whatever the configuration, the clauses and the goals are: every substitution of a search
is orderly, and with the occurs check it is acyclic as well. So granting enough is all that
a step needs.
-/

namespace ClauseResolution

variable {config : Config} {clausesOf : String → List Clause} {steps m n : Nat}
  {s s' : Substitution} {call : Call} {head : Occurrence}

namespace Substitution

/-- Allocating slots keeps a substitution acyclic. -/
theorem Acyclic.allocate (h : s.Acyclic) (count : Nat) : (s.allocate count).Acyclic := h

/-- Allocating slots keeps a substitution orderly. -/
theorem Orderly.allocate (h : s.Orderly) (count : Nat) : (s.allocate count).Orderly :=
  ⟨h.settles.withTop _, h.nodup⟩

/-- Every unification ends, however many slots are allocated before it. -/
def Ends (config : Config) (s : Substitution) : Prop := ∀ count pairs,
  ∃ steps, (s.allocate count).unifyPairs .byOccurrence config.occursCheck steps [] pairs ≠
    .unfinished

/-- With the occurs check every unification in an acyclic substitution ends. -/
theorem Acyclic.ends (h : s.Acyclic) (hcheck : config.occursCheck = true) : s.Ends config := by
  intro count pairs
  obtain ⟨slots, hslots⟩ := (s.allocate count).exists_confined pairs
  rw [hcheck]
  exact exists_unifyPairs_ne_unfinished (h.allocate count) hslots

/-- Without the occurs check every unification in an orderly substitution ends. -/
theorem Orderly.ends (h : s.Orderly) (hcheck : config.occursCheck = false) : s.Ends config := by
  intro count pairs
  obtain ⟨texts, htexts⟩ := (s.allocate count).exists_within pairs
  rw [hcheck]
  exact (h.allocate count).exists_unchecked_ne_unfinished [] htexts

/-- Following variables ends, no slot is bound twice, and with the occurs check no slot
leads to itself. -/
structure Tractable (config : Config) (s : Substitution) : Prop extends s.Orderly where
  /-- With the occurs check no slot leads to itself. -/
  acyclic : config.occursCheck = true → s.Acyclic

/-- A substitution without bindings is tractable. -/
theorem tractable_of_bindings_eq_nil (h : s.bindings = []) : s.Tractable config :=
  ⟨⟨settles_of_bindings_eq_nil h, by simp [h]⟩, fun _ => acyclic_of_bindings_eq_nil h⟩

namespace Tractable

/-- Allocating slots keeps a substitution tractable. -/
theorem allocate (h : s.Tractable config) (count : Nat) : (s.allocate count).Tractable config :=
  ⟨h.toOrderly.allocate count, fun hcheck => (h.acyclic hcheck).allocate count⟩

/-- What a unification returns is tractable. -/
theorem unifyPairs {entered pending : List (Occurrence × Occurrence)} (h : s.Tractable config)
    (hunified : s.unifyPairs .byOccurrence config.occursCheck steps entered pending = .unified s') :
    s'.Tractable config :=
  ⟨h.toOrderly.unifyPairs hunified, acyclic_of_unified h.acyclic hunified⟩

/-- Every unification in a tractable substitution ends. -/
theorem ends (h : s.Tractable config) : s.Ends config := by
  cases hcheck : config.occursCheck with
  | true => exact (h.acyclic hcheck).ends hcheck
  | false => exact h.toOrderly.ends hcheck

end Tractable

namespace Ends

/-- Unifying with a head ends. -/
theorem exists_unifyHead (h : s.Ends config) (count : Nat) (call : Call) (head : Occurrence) :
    ∃ steps, (s.allocate count).unifyHead config steps call head ≠ .unfinished := by
  obtain ⟨steps, hend⟩ := h count (call.args.zip head.args)
  refine ⟨steps, ?_⟩
  rw [Substitution.unifyHead]
  split
  · split
    · exact hend
    · exact Verdict.noConfusion
  · exact Verdict.noConfusion

/-- Looking for a clause ends. -/
theorem exists_firstMatch (h : s.Ends config) (call : Call) (clauses : List Clause) :
    ∃ steps, s.firstMatch config steps call clauses ≠ .unfinished := by
  induction clauses with
  | nil => exact ⟨0, Hit.noConfusion⟩
  | cons clause clauses ih =>
    obtain ⟨k, hrest⟩ := ih
    obtain ⟨m, hhead⟩ := h.exists_unifyHead clause.varCount call (clause.rename s.context).head
    refine ⟨max m k, ?_⟩
    rw [Substitution.firstMatch, unifyHead_mono (le_max_left m k) hhead]
    cases hverdict : (s.allocate clause.varCount).unifyHead config m call
        (clause.rename s.context).head with
    | unified last => exact Hit.noConfusion
    | unfinished => exact absurd hverdict hhead
    | clash =>
      dsimp only
      rwa [firstMatch_mono (le_max_right m k) hrest]

end Ends

end Substitution

namespace Exploration

variable {e : Exploration} {depth : Nat} {next : List Frame}

/-- Entering a clause ends. -/
theorem exists_enter (h : e.substitution.Ends config) (call : Call) (clauses : List Clause)
    (depth : Nat) (next : List Frame) :
    ∃ steps, e.enter config steps call clauses depth next ≠ .unfinished := by
  obtain ⟨steps, hend⟩ := h.exists_firstMatch call clauses
  refine ⟨steps, ?_⟩
  rw [enter]
  cases hmatch : e.substitution.firstMatch config steps call clauses with
  | found | missing => exact Stage.noConfusion
  | unfinished => exact absurd hmatch hend

/-- Doing what a call asks for ends. -/
theorem exists_performCall (h : e.substitution.Ends config) (clausesOf : String → List Clause)
    (call : Call) (barrier depth : Nat) :
    ∃ steps, e.performCall config clausesOf steps call barrier depth ≠ .unfinished := by
  cases hgoal : Goal.ofCall call with
  | error => exact ⟨0, by simp [performCall, hgoal]⟩
  | ok goal =>
    simp only [performCall, hgoal]
    cases goal with
    | truth | failure | cut | both | either | ifThen | negation => exact ⟨0, Stage.noConfusion⟩
    | call target extra =>
      refine ⟨0, ?_⟩
      simp only [perform]
      split <;> exact Stage.noConfusion
    | unify left right | differ left right =>
      obtain ⟨steps, hend⟩ := h 0 [(left, right)]
      refine ⟨steps, ?_⟩
      simp only [perform]
      split
      · exact Stage.noConfusion
      · exact Stage.noConfusion
      · next hverdict => exact absurd hverdict hend
    | predicate callee =>
      obtain ⟨steps, hend⟩ := exists_enter (e := { e with inferences := e.inferences + 1 }) h
        callee (clausesOf callee.indicator) depth e.continuation
      refine ⟨steps, ?_⟩
      simp only [perform, resolve]
      split
      · exact Stage.noConfusion
      · split
        · exact Stage.noConfusion
        · exact hend

/-- A step ends. -/
theorem exists_advance_of_ends (h : e.substitution.Ends config)
    (clausesOf : String → List Clause) :
    ∃ steps, e.advance config clausesOf steps ≠ .unfinished := by
  obtain ⟨s, continuation, branches, inferences⟩ := e
  have hs : s.Ends config := h
  match continuation with
  | [] => exact ⟨0, Stage.noConfusion⟩
  | .cutTo height :: next => exact ⟨0, Stage.noConfusion⟩
  | .call call barrier depth :: next =>
    simp only [advance]
    exact exists_performCall hs clausesOf call barrier depth
  | .goal target barrier depth :: next =>
    simp only [advance]
    cases Call.ofOccurrence (s.deref target) with
    | error => exact ⟨0, Stage.noConfusion⟩
    | ok call => exact exists_performCall hs clausesOf call barrier depth

/-- Going back ends. -/
theorem exists_backtrack_of_ends {branches : List Branch}
    (h : ∀ branch ∈ branches, branch.substitution.Ends config) (inferences : Nat) :
    ∃ steps, backtrack config steps inferences branches ≠ .unfinished := by
  induction branches with
  | nil => exact ⟨0, Return.noConfusion⟩
  | cons branch branches ih =>
    obtain ⟨hbranch, hrest⟩ := List.forall_mem_cons.1 h
    match branch with
    | ⟨s, .goal target barrier depth next⟩ => exact ⟨0, Return.noConfusion⟩
    | ⟨s, .clauses call untried depth next⟩ =>
      obtain ⟨k, hend⟩ := ih hrest
      obtain ⟨m, henter⟩ := exists_enter (e := ⟨s, next, branches, inferences⟩) hbranch call
        untried depth next
      refine ⟨max m k, ?_⟩
      rw [backtrack, enter_mono (le_max_left m k) henter]
      cases hstage : enter config m call untried depth next ⟨s, next, branches, inferences⟩ with
      | proceed => exact Return.noConfusion
      | unfinished => exact absurd hstage henter
      | backtrack | solution | error =>
        dsimp only
        rwa [backtrack_mono (le_max_right m k) hend]

/-- Being tractable is an invariant of branches. -/
def tractability (config : Config) : BranchInvariant config where
  Index := Unit
  Suits _ s := s.Tractable config
  Has _ _ := True
  Admits _ := True
  truth _ := trivial
  arg _ _ := trivial
  deref _ _ := trivial
  unify h _ hunified := h.unifyPairs hunified
  enter {_ _ clause} h _ := ⟨(), h.allocate clause.varCount, fun _ _ => trivial, trivial, trivial⟩

/-- Going back from branches with tractable substitutions ends. -/
theorem exists_backtrack_of_tractable {branches : List Branch}
    (h : ∀ branch ∈ branches, (tractability config).OfBranch branch) (inferences : Nat) :
    ∃ steps, backtrack config steps inferences branches ≠ .unfinished := by
  refine exists_backtrack_of_ends (fun branch hmem => ?_) inferences
  obtain ⟨_, hbranch, _⟩ := (h branch hmem).carried
  exact Substitution.Tractable.ends hbranch

/-- A search starts without bindings. -/
theorem ofExploration_tractability_start (config : Config) (query : Normalized) :
    (tractability config).OfExploration (start query) :=
  ⟨⟨(), Substitution.tractable_of_bindings_eq_nil rfl, fun _ _ _ _ => trivial⟩,
    by simp [start]⟩

end Exploration

end ClauseResolution
