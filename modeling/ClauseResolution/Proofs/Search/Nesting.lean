import ClauseResolution.Proofs.Search.Meaning

/-!
# Cuts stay nested

Every step of an exploration, forward or back, keeps the targets of cuts nested: they do
not increase along the goals that remain, and those of a branch lie below the branch.
-/

namespace ClauseResolution

/-- The state that a step leads to is nested. -/
def Stage.Nested : Stage → Prop
  | .proceed e => e.Nested
  | .backtrack e => Branch.AllNested e.branches
  | .solution e => Branch.AllNested e.branches
  | _ => True

namespace Exploration

variable {config : Config} {clausesOf : String → List Clause} {steps : Nat}

/-- The state about to run a goal is nested. -/
theorem nested_start (query : Normalized) : (start query).Nested := ⟨⟨le_refl 0, trivial⟩, trivial⟩

/-- Entering a clause keeps a search nested. -/
theorem enter_nested {call : Call} {clauses : List Clause} {nesting : Nat} {next : List Frame}
    {e : Exploration} (hnext : Frame.Descending e.branches.length next)
    (hbranches : Branch.AllNested e.branches) :
    (e.enter config steps call clauses nesting next).Nested := by
  rw [enter]
  cases e.substitution.firstMatch config steps call clauses with
  | missing => exact hbranches
  | unfinished => trivial
  | found s body isFact untried =>
    have hframes : Frame.Descending e.branches.length
        (if isFact = true then next else .goal body e.branches.length (nesting + 1) :: next) := by
      cases isFact with
      | true => exact hnext
      | false => exact ⟨le_refl _, hnext⟩
    cases untried with
    | nil => exact ⟨hframes, hbranches⟩
    | cons clause untried => exact ⟨hframes.mono (Nat.le_succ _), hnext, hbranches⟩

/-- Doing what a goal asks for keeps a search nested. -/
theorem perform_nested {goal : Goal} {barrier nesting : Nat} {e : Exploration}
    (hbarrier : barrier ≤ e.branches.length) (hnext : Frame.Descending barrier e.continuation)
    (hbranches : Branch.AllNested e.branches) :
    (e.perform config clausesOf steps goal barrier nesting).Nested := by
  obtain ⟨s, next, branches, inferences⟩ := e
  dsimp only at hbarrier hnext hbranches
  have hheight : Frame.Descending branches.length next := hnext.mono hbarrier
  cases goal with
  | truth => exact ⟨hheight, hbranches⟩
  | failure => exact hbranches
  | cut =>
    refine ⟨hnext.mono ?_, hbranches.drop _⟩
    dsimp only [Exploration.cut]
    rw [List.length_drop]
    omega
  | both left right => exact ⟨⟨hbarrier, le_refl _, hnext⟩, hbranches⟩
  | either left right =>
    exact ⟨⟨hbarrier.trans (Nat.le_succ _), hnext⟩, ⟨hbarrier, hnext⟩, hbranches⟩
  | ifThen condition consequent alternative =>
    cases alternative with
    | none => exact ⟨⟨le_refl _, le_refl _, hbarrier, hnext⟩, hbranches⟩
    | some goal =>
      exact ⟨⟨le_refl _, Nat.le_succ _, hbarrier, hnext⟩, ⟨hbarrier, hnext⟩, hbranches⟩
  | negation goal =>
    exact ⟨⟨le_refl _, Nat.le_succ _, hbarrier, trivial⟩, ⟨hbarrier, hnext⟩, hbranches⟩
  | call target extra =>
    rw [perform]
    cases Call.ofOccurrence (s.deref target) with
    | error cause => trivial
    | ok callee => exact ⟨⟨le_refl _, hheight⟩, hbranches⟩
  | unify left right =>
    rw [perform]
    cases s.unifyPairs .byOccurrence config.occursCheck steps [] [(left, right)] with
    | unified extended => exact ⟨hheight, hbranches⟩
    | clash => exact hbranches
    | unfinished => trivial
  | differ left right =>
    rw [perform]
    cases s.unifyPairs .byOccurrence config.occursCheck steps [] [(left, right)] with
    | unified extended => exact hbranches
    | clash => exact ⟨hheight, hbranches⟩
    | unfinished => trivial
  | predicate call =>
    rw [perform, resolve]
    split
    · trivial
    · split
      · trivial
      · exact enter_nested hheight hbranches

/-- Doing what a call asks for keeps a search nested. -/
theorem performCall_nested {call : Call} {barrier nesting : Nat} {e : Exploration}
    (hbarrier : barrier ≤ e.branches.length) (hnext : Frame.Descending barrier e.continuation)
    (hbranches : Branch.AllNested e.branches) :
    (e.performCall config clausesOf steps call barrier nesting).Nested := by
  rw [performCall]
  cases Goal.ofCall call with
  | error cause => trivial
  | ok goal => exact perform_nested hbarrier hnext hbranches

/-- A step keeps the targets of cuts nested. -/
theorem advance_nested {e : Exploration} (h : e.Nested) :
    (e.advance config clausesOf steps).Nested := by
  obtain ⟨s, continuation, branches, inferences⟩ := e
  obtain ⟨hcontinuation, hbranches⟩ := h
  match continuation with
  | [] => exact hbranches
  | .cutTo height :: next =>
    refine ⟨hcontinuation.2.mono ?_, hbranches.drop _⟩
    dsimp only [cut]
    rw [List.length_drop]
    exact (Nat.sub_sub_self hcontinuation.1).symm.le
  | .call call barrier nesting :: next =>
    exact performCall_nested hcontinuation.1 hcontinuation.2 hbranches
  | .goal goal barrier nesting :: next =>
    rw [advance]
    cases Call.ofOccurrence (s.deref goal) with
    | error cause => trivial
    | ok call => exact performCall_nested hcontinuation.1 hcontinuation.2 hbranches

/-- Going back keeps the targets of cuts nested. -/
theorem backtrack_nested {inferences : Nat} {branches : List Branch} {e : Exploration}
    (h : Branch.AllNested branches)
    (hback : backtrack config steps inferences branches = .resumed e) : e.Nested := by
  obtain ⟨skipped, branch, rest, rfl, htakes⟩ := exists_takesUp_of_backtrack hback
  have hrest : Branch.AllNested (branch :: rest) := by
    have hdrop := h.drop skipped.length
    rwa [List.drop_left] at hdrop
  obtain ⟨hbranch, hbranches⟩ := hrest
  cases htakes with
  | goal => exact ⟨hbranch, hbranches⟩
  | @clauses s call untried nesting next _ henter =>
    have hstage : (enter config steps call untried nesting next
        ⟨s, next, rest, inferences⟩).Nested := enter_nested hbranch hbranches
    rwa [henter] at hstage

end Exploration

end ClauseResolution
