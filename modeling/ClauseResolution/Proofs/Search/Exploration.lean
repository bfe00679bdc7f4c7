import ClauseResolution.Proofs.Unification.Steps
import ClauseResolution.Search.Step

/-!
# Searches apart from the store

An exploration is a search whose substitutions stand by themselves: the current one, and
one for each branch left to return to. There is no store, so there is nothing to reclaim,
and dropping a branch is dropping an element of a list. An exploration takes the same
steps as a search. A step that ends does so in the same way when more is granted to the
unifications in it.
-/

namespace ClauseResolution

/-- A branch to return to. -/
structure Branch where
  /-- The substitution to go back to. -/
  substitution : Substitution
  /-- What is left to be tried. -/
  alternative : Alternative

/-- The state of a search, apart from the store. -/
structure Exploration where
  /-- The current substitution. -/
  substitution : Substitution
  /-- The goals that remain, the next one first. -/
  continuation : List Frame
  /-- The branches to return to, the newest first. -/
  branches : List Branch
  /-- The number of predicate calls so far. -/
  inferences : Nat

/-- What a step of an exploration leads to. -/
inductive Stage
  /-- Go on with the goals that remain. -/
  | proceed (state : Exploration)
  /-- Go back to the newest branch. -/
  | backtrack (state : Exploration)
  /-- All goals are done. -/
  | solution (state : Exploration)
  /-- The search ends with an error. -/
  | error (error : SearchError)
  /-- The steps granted did not suffice. -/
  | unfinished

/-- The first clause whose head unifies with a call, apart from the store. -/
inductive Hit
  /-- The substitution that unifies, the renamed body, whether the clause is a fact, and
  the clauses after it. -/
  | found (s : Substitution) (body : Occurrence) (isFact : Bool) (untried : List Clause)
  /-- No clause is left. -/
  | missing
  /-- The steps granted did not suffice. -/
  | unfinished

namespace Substitution

/-- The substitution in which the slots of a clause are allocated. -/
def allocate (s : Substitution) (count : Nat) : Substitution := ⟨s.bindings, s.top + count⟩

/-- Unifies a call with the head of a clause. -/
def unifyHead (config : Config) (steps : Nat) (s : Substitution) (call : Call) (head : Occurrence) :
    Verdict :=
  match head.term with
  | .compound functor args _ =>
    if call.functor = functor ∧ call.args.length = args.length then
      s.unifyPairs .byOccurrence config.occursCheck steps [] (call.args.zip head.args)
    else .clash
  | _ => .clash

/-- Looks for the first clause whose head unifies with a call. -/
def firstMatch (config : Config) (steps : Nat) (s : Substitution) (call : Call) :
    List Clause → Hit
  | [] => .missing
  | clause :: clauses =>
    let fresh := clause.rename s.context
    match (s.allocate clause.varCount).unifyHead config steps call fresh.head with
    | .unified s => .found s fresh.body clause.isFact clauses
    | .clash => firstMatch config steps s call clauses
    | .unfinished => .unfinished

/-- The clause that matches first is one of those looked through; its head unifies with the call,
and the clauses after it are left. -/
theorem exists_of_firstMatch_eq_found {config : Config} {steps : Nat} {s s' : Substitution}
    {call : Call} {clauses untried : List Clause} {body : Occurrence} {isFact : Bool}
    (h : s.firstMatch config steps call clauses = .found s' body isFact untried) :
    ∃ skipped clause, clauses = skipped ++ clause :: untried ∧
      (s.allocate clause.varCount).unifyHead config steps call (clause.rename s.context).head =
        .unified s' ∧
      body = (clause.rename s.context).body ∧ isFact = clause.isFact := by
  induction clauses with
  | nil => cases h
  | cons clause clauses ih =>
    rw [firstMatch] at h
    cases hhead : (s.allocate clause.varCount).unifyHead config steps call
        (clause.rename s.context).head with
    | unified s'' =>
      simp only [hhead] at h
      cases h
      exact ⟨[], clause, rfl, hhead, rfl, rfl⟩
    | clash =>
      simp only [hhead] at h
      obtain ⟨skipped, found, rfl, hfound⟩ := ih h
      exact ⟨clause :: skipped, found, rfl, hfound⟩
    | unfinished => simp [hhead] at h

end Substitution

namespace Exploration

/-- The exploration in which a normalized goal is about to run. -/
def start (query : Normalized) : Exploration where
  substitution := ⟨[], query.vars.length⟩
  continuation := [.goal (.whole 0 query.term) 0 0]
  branches := []
  inferences := 0

/-- Drops the branches above a height. -/
def cut (height : Nat) (e : Exploration) : Exploration :=
  { e with branches := e.branches.drop (e.branches.length - height) }

/-- Adds a branch on which another goal runs in the place of the present one. -/
def offer (goal : Occurrence) (barrier depth : Nat) (e : Exploration) : Exploration :=
  { e with branches := ⟨e.substitution, .goal goal barrier depth e.continuation⟩ :: e.branches }

/-- Sets the goals that remain. -/
def continueWith (continuation : List Frame) (e : Exploration) : Exploration :=
  { e with continuation := continuation }

/-- Enters the first clause that matches a call and leaves a branch for the clauses after
it. -/
def enter (config : Config) (steps : Nat) (call : Call) (clauses : List Clause) (depth : Nat)
    (next : List Frame) (e : Exploration) : Stage :=
  match e.substitution.firstMatch config steps call clauses with
  | .missing => .backtrack e
  | .unfinished => .unfinished
  | .found s body isFact untried =>
    let branches :=
      if untried.isEmpty then e.branches
      else ⟨e.substitution, .clauses call untried depth next⟩ :: e.branches
    let continuation :=
      if isFact then next else .goal body e.branches.length (depth + 1) :: next
    .proceed ⟨s, continuation, branches, e.inferences⟩

/-- Calls a predicate, after the bounds are tested. -/
def resolve (config : Config) (clausesOf : String → List Clause) (steps : Nat) (call : Call)
    (depth : Nat) (e : Exploration) : Stage :=
  if config.maxDepth ≤ depth then .error (.depthExceeded config.maxDepth)
  else
    match config.maxInferences.filter (· < e.inferences + 1) with
    | some limit => .error (.inferenceLimit limit)
    | none =>
      enter config steps call (clausesOf call.indicator) depth e.continuation
        { e with inferences := e.inferences + 1 }

/-- Does what a goal asks for. -/
def perform (config : Config) (clausesOf : String → List Clause) (steps : Nat) (goal : Goal)
    (barrier depth : Nat) (e : Exploration) : Stage :=
  match goal with
  | .truth => .proceed e
  | .failure => .backtrack e
  | .cut => .proceed (e.cut barrier)
  | .both left right =>
    .proceed (e.continueWith
      (.goal left barrier depth :: .goal right barrier depth :: e.continuation))
  | .either left right =>
    .proceed ((e.offer right barrier depth).continueWith
      (.goal left barrier depth :: e.continuation))
  | .ifThen condition consequent alternative =>
    let offered := match alternative with
      | some goal => e.offer goal barrier depth
      | none => e
    .proceed (offered.continueWith (.goal condition offered.branches.length depth ::
      .cutTo e.branches.length :: .goal consequent barrier depth :: e.continuation))
  | .negation goal =>
    let offered := e.offer (.whole 0 Clause.truth) barrier depth
    .proceed (offered.continueWith [.goal goal offered.branches.length depth,
      .cutTo e.branches.length, .call ⟨"fail", []⟩ barrier depth])
  | .call target extra =>
    match Call.ofOccurrence (e.substitution.deref target) with
    | .error error => .error error
    | .ok call =>
      .proceed (e.continueWith
        (.call (call.addArgs extra) e.branches.length depth :: e.continuation))
  | .unify left right =>
    match e.substitution.unifyPairs .byOccurrence config.occursCheck steps [] [(left, right)] with
    | .unified s => .proceed { e with substitution := s }
    | .clash => .backtrack e
    | .unfinished => .unfinished
  | .differ left right =>
    match e.substitution.unifyPairs .byOccurrence config.occursCheck steps [] [(left, right)] with
    | .unified _ => .backtrack e
    | .clash => .proceed e
    | .unfinished => .unfinished
  | .predicate call => resolve config clausesOf steps call depth e

/-- Does what a call asks for. -/
def performCall (config : Config) (clausesOf : String → List Clause) (steps : Nat) (call : Call)
    (barrier depth : Nat) (e : Exploration) : Stage :=
  match Goal.ofCall call with
  | .error error => .error error
  | .ok goal => perform config clausesOf steps goal barrier depth e

/-- Takes the next frame. -/
def advance (config : Config) (clausesOf : String → List Clause) (steps : Nat) :
    Exploration → Stage
  | ⟨s, [], branches, inferences⟩ => .solution ⟨s, [], branches, inferences⟩
  | ⟨s, .cutTo height :: next, branches, inferences⟩ =>
    .proceed (cut height ⟨s, next, branches, inferences⟩)
  | ⟨s, .call call barrier depth :: next, branches, inferences⟩ =>
    performCall config clausesOf steps call barrier depth ⟨s, next, branches, inferences⟩
  | ⟨s, .goal goal barrier depth :: next, branches, inferences⟩ =>
    match Call.ofOccurrence (s.deref goal) with
    | .error error => .error error
    | .ok call =>
      performCall config clausesOf steps call barrier depth ⟨s, next, branches, inferences⟩

/-- What going back leads to. -/
inductive Return
  /-- A branch was taken up. -/
  | resumed (state : Exploration)
  /-- No branch is left after a number of predicate calls. -/
  | exhausted (inferences : Nat)
  /-- The steps granted did not suffice. -/
  | unfinished

/-- Takes up the newest branch that has something to try. -/
def backtrack (config : Config) (steps inferences : Nat) : List Branch → Return
  | [] => .exhausted inferences
  | ⟨s, .goal goal barrier depth next⟩ :: branches =>
    .resumed ⟨s, .goal goal barrier depth :: next, branches, inferences⟩
  | ⟨s, .clauses call untried depth next⟩ :: branches =>
    match enter config steps call untried depth next ⟨s, next, branches, inferences⟩ with
    | .proceed e => .resumed e
    | .unfinished => .unfinished
    | _ => backtrack config steps inferences branches

/-- Which clause is entered does not depend on the goals that remained before. -/
theorem backtrack_clauses (config : Config) (steps : Nat) (continuation : List Frame)
    {inferences depth : Nat} {s : Substitution} {call : Call} {untried : List Clause}
    {next : List Frame} {branches : List Branch} :
    backtrack config steps inferences (⟨s, .clauses call untried depth next⟩ :: branches) =
      match enter config steps call untried depth next ⟨s, continuation, branches, inferences⟩ with
      | .proceed e => .resumed e
      | .unfinished => .unfinished
      | _ => backtrack config steps inferences branches := by
  rw [backtrack, enter, enter]
  cases s.firstMatch config steps call untried <;> rfl

/-- How a branch is taken up, above the branches that stay: with the goal it was left for, or
with the first of its clauses that matches. -/
inductive TakesUp (config : Config) (steps inferences : Nat) (rest : List Branch) :
    Branch → Exploration → Prop
  /-- With a goal. -/
  | goal {s : Substitution} {target : Occurrence} {barrier depth : Nat} {next : List Frame} :
      TakesUp config steps inferences rest ⟨s, .goal target barrier depth next⟩
        ⟨s, .goal target barrier depth :: next, rest, inferences⟩
  /-- With a clause. -/
  | clauses {s : Substitution} {call : Call} {untried : List Clause} {depth : Nat}
      {next : List Frame} {e : Exploration}
      (henter : enter config steps call untried depth next ⟨s, next, rest, inferences⟩ =
        .proceed e) :
      TakesUp config steps inferences rest ⟨s, .clauses call untried depth next⟩ e

/-- Going back takes up one of the branches, and those below it stay. -/
theorem exists_takesUp_of_backtrack {config : Config} {steps inferences : Nat}
    {branches : List Branch} {e : Exploration}
    (h : backtrack config steps inferences branches = .resumed e) :
    ∃ skipped branch rest, branches = skipped ++ branch :: rest ∧
      TakesUp config steps inferences rest branch e := by
  induction branches with
  | nil => cases h
  | cons branch branches ih =>
    match branch with
    | ⟨s, .goal target barrier depth next⟩ =>
      cases h
      exact ⟨[], _, branches, rfl, .goal⟩
    | ⟨s, .clauses call untried depth next⟩ =>
      rw [backtrack] at h
      cases henter : enter config steps call untried depth next
          ⟨s, next, branches, inferences⟩ with
      | proceed e' =>
        simp only [henter] at h
        cases h
        exact ⟨[], _, branches, rfl, .clauses henter⟩
      | unfinished => simp [henter] at h
      | backtrack | solution | error =>
        simp only [henter] at h
        obtain ⟨skipped, found, rest, rfl, htakes⟩ := ih h
        exact ⟨_ :: skipped, found, rest, rfl, htakes⟩

/-- Looking for a clause in vain changes nothing. -/
theorem eq_of_enter_eq_backtrack {config : Config} {steps depth : Nat} {call : Call}
    {clauses : List Clause} {next : List Frame} {e e' : Exploration}
    (h : enter config steps call clauses depth next e = .backtrack e') : e' = e := by
  rw [enter] at h
  cases hmatch : e.substitution.firstMatch config steps call clauses <;> simp [hmatch] at h
  exact h.symm

end Exploration

section Granting

variable {config : Config} {clausesOf : String → List Clause} {m n : Nat}

/-- Unifying with a head ends in the same way when more steps are granted. -/
theorem Substitution.unifyHead_mono {s : Substitution} {call : Call} {head : Occurrence}
    (hmn : m ≤ n) (h : s.unifyHead config m call head ≠ .unfinished) :
    s.unifyHead config n call head = s.unifyHead config m call head := by
  unfold unifyHead at h ⊢
  split
  · next functor args varCount hterm =>
    simp only [hterm] at h
    split
    · next hfits =>
      rw [if_pos hfits] at h
      exact unifyPairs_mono hmn h
    · rfl
  · rfl

/-- The first match is the same when more steps are granted. -/
theorem Substitution.firstMatch_mono {s : Substitution} {call : Call} {clauses : List Clause}
    (hmn : m ≤ n) (h : s.firstMatch config m call clauses ≠ .unfinished) :
    s.firstMatch config n call clauses = s.firstMatch config m call clauses := by
  induction clauses with
  | nil => rfl
  | cons clause clauses ih =>
    rw [firstMatch] at h ⊢
    rw [firstMatch]
    cases hhead : (s.allocate clause.varCount).unifyHead config m call
        (clause.rename s.context).head with
    | unfinished => simp [hhead] at h
    | unified s' =>
      have hmore := unifyHead_mono hmn (by rw [hhead]; exact Verdict.noConfusion)
      simp only [hmore, hhead]
    | clash =>
      have hmore := unifyHead_mono hmn (by rw [hhead]; exact Verdict.noConfusion)
      simp only [hhead] at h
      simp only [hmore, hhead]
      exact ih h

namespace Exploration

variable {call : Call} {clauses : List Clause} {depth barrier : Nat} {next : List Frame}
  {goal : Goal} {e : Exploration}

/-- Entering a clause ends in the same way when more steps are granted. -/
theorem enter_mono (hmn : m ≤ n) (h : enter config m call clauses depth next e ≠ .unfinished) :
    enter config n call clauses depth next e = enter config m call clauses depth next e := by
  rw [enter] at h ⊢
  rw [enter]
  cases hmatch : e.substitution.firstMatch config m call clauses with
  | unfinished => simp [hmatch] at h
  | found s body isFact untried =>
    rw [Substitution.firstMatch_mono hmn (by rw [hmatch]; exact Hit.noConfusion), hmatch]
  | missing =>
    rw [Substitution.firstMatch_mono hmn (by rw [hmatch]; exact Hit.noConfusion), hmatch]

/-- Doing what a goal asks for ends in the same way when more steps are granted. -/
theorem perform_mono (hmn : m ≤ n)
    (h : perform config clausesOf m goal barrier depth e ≠ .unfinished) :
    perform config clausesOf n goal barrier depth e =
      perform config clausesOf m goal barrier depth e := by
  cases goal with
  | unify left right | differ left right =>
    simp only [perform] at h ⊢
    cases hunify : e.substitution.unifyPairs .byOccurrence config.occursCheck m []
      [(left, right)] with
    | unfinished => simp [hunify] at h
    | unified s =>
      rw [Substitution.unifyPairs_mono hmn (by rw [hunify]; exact Verdict.noConfusion), hunify]
    | clash =>
      rw [Substitution.unifyPairs_mono hmn (by rw [hunify]; exact Verdict.noConfusion), hunify]
  | predicate call =>
    simp only [perform, resolve] at h ⊢
    split
    · rfl
    · next hdepth =>
      rw [if_neg hdepth] at h
      split
      · rfl
      · next hlimit =>
        simp only [hlimit] at h
        exact enter_mono hmn h
  | truth | failure | cut | both | either | ifThen | negation | call => rfl

/-- Doing what a call asks for ends in the same way when more steps are granted. -/
theorem performCall_mono (hmn : m ≤ n)
    (h : performCall config clausesOf m call barrier depth e ≠ .unfinished) :
    performCall config clausesOf n call barrier depth e =
      performCall config clausesOf m call barrier depth e := by
  rw [performCall] at h ⊢
  rw [performCall]
  cases hgoal : Goal.ofCall call with
  | error error => rfl
  | ok goal =>
    simp only [hgoal] at h
    exact perform_mono hmn h

/-- A step that ends does so in the same way when more steps are granted. -/
theorem advance_mono (hmn : m ≤ n) (h : e.advance config clausesOf m ≠ .unfinished) :
    e.advance config clausesOf n = e.advance config clausesOf m := by
  obtain ⟨s, continuation, branches, inferences⟩ := e
  match continuation with
  | [] => rfl
  | .cutTo height :: next => rfl
  | .call call barrier depth :: next =>
    rw [advance] at h ⊢
    rw [advance]
    exact performCall_mono hmn h
  | .goal goal barrier depth :: next =>
    rw [advance] at h ⊢
    rw [advance]
    cases hcall : Call.ofOccurrence (s.deref goal) with
    | error error => rfl
    | ok call =>
      simp only [hcall] at h
      exact performCall_mono hmn h

/-- Entering a clause is not yet a solution. -/
theorem enter_ne_solution {e' : Exploration} :
    enter config m call clauses depth next e ≠ .solution e' := by
  rw [enter]
  cases e.substitution.firstMatch config m call clauses <;> exact Stage.noConfusion

/-- Doing what a call asks for is not yet a solution. -/
theorem performCall_ne_solution {e' : Exploration} :
    performCall config clausesOf m call barrier depth e ≠ .solution e' := by
  rw [performCall]
  cases Goal.ofCall call with
  | error cause => exact Stage.noConfusion
  | ok goal =>
    cases goal with
    | predicate callee =>
      simp only [perform, resolve]
      split
      · exact Stage.noConfusion
      · split
        · exact Stage.noConfusion
        · exact enter_ne_solution
    | call target extra =>
      simp only [perform]
      split <;> exact Stage.noConfusion
    | unify left right | differ left right =>
      simp only [perform]
      split <;> exact Stage.noConfusion
    | truth | failure | cut | both | either | ifThen | negation => exact Stage.noConfusion

/-- A solution does not depend on the steps granted. -/
theorem advance_of_eq_solution {e' : Exploration}
    (h : e.advance config clausesOf m = .solution e') :
    e.advance config clausesOf n = .solution e' := by
  obtain ⟨s, continuation, branches, inferences⟩ := e
  match continuation with
  | [] => exact h
  | .cutTo height :: next => cases h
  | .call call barrier depth :: next => exact absurd h performCall_ne_solution
  | .goal goal barrier depth :: next =>
    rw [advance] at h
    split at h
    · cases h
    · exact absurd h performCall_ne_solution

/-- Going back ends in the same way when more steps are granted. -/
theorem backtrack_mono {inferences : Nat} {branches : List Branch} (hmn : m ≤ n)
    (h : backtrack config m inferences branches ≠ .unfinished) :
    backtrack config n inferences branches = backtrack config m inferences branches := by
  induction branches with
  | nil => rfl
  | cons branch branches ih =>
    match branch with
    | ⟨s, .goal goal barrier depth next⟩ => rfl
    | ⟨s, .clauses call untried depth next⟩ =>
      rw [backtrack] at h ⊢
      rw [backtrack]
      cases henter : enter config m call untried depth next ⟨s, next, branches, inferences⟩ with
      | unfinished => simp [henter] at h
      | proceed e =>
        rw [enter_mono hmn (by rw [henter]; exact Stage.noConfusion), henter]
      | backtrack e | solution e | error e =>
        rw [enter_mono hmn (by rw [henter]; exact Stage.noConfusion), henter]
        simp only [henter] at h
        exact ih h

end Exploration

end Granting

end ClauseResolution
