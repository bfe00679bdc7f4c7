import ClauseResolution.Proofs.Clause.Instance
import ClauseResolution.Proofs.Search.Exploration
import ClauseResolution.Proofs.Search.Trace

/-!
# Goals by recursion

The meaning of a goal is its trace, by recursion on what the goal is. There is no stack of
choice points and no list of goals that remain: a conjunction runs its right goal after
each answer of the left one, a disjunction runs one goal after the other, a call of a
predicate runs the bodies of the clauses that match. A goal is read here off the term that
it is, by functor and arguments; what a search makes of the same goal is compared below. A
number bounds the depth of the recursion and the steps of each unification; a larger number
never changes what is seen already.
-/

namespace ClauseResolution

/-- Runs a goal, given what calls do. An atom is a functor without arguments. A variable and
a number are errors. -/
def Occurrence.trace (calls : Call → Substitution → Trace Unit) (o : Occurrence)
    (s : Substitution) : Trace Unit :=
  let goal := s.store.deref s.context o
  match goal.term with
  | .atom name => calls ⟨name, []⟩ s
  | .compound functor _ _ => calls ⟨functor, goal.args⟩ s
  | .var _ => .step (.error .instantiation)
  | .number value => .step (.error (.notCallable (.number value)))

/-- Runs the body of each clause whose head has the functor and the arity of a call and
unifies with it, one after the other. A body `true` is done at once. -/
def Call.traceClauses (config : Config) (steps : Nat) (calls : Call → Substitution → Trace Unit)
    (call : Call) (s : Substitution) : List Clause → Trace Unit
  | [] => .exhausted
  | clause :: clauses =>
    let rest := call.traceClauses config steps calls s clauses
    let fresh := clause.rename s.context
    if call.functor = clause.head.functor ∧ call.args.length = clause.head.args.length then
      match (unifyAll .byOccurrence config.occursCheck steps s.store fresh.context
        (call.args.zip fresh.head.args)).verdict with
      | .unified extended =>
        let body :=
          if clause.body = .atom "true" then .answer extended .exhausted
          else fresh.body.trace calls extended
        body.orElse rest
      | .clash => rest
      | .unfinished => .unfinished
    else rest

/-- Runs a call, given what the calls in it do. A negation commits to an answer of its goal and
fails then, and is true if there is none. Whatever is no control construct calls the clauses of
its predicate, and cuts in these have no effect outside. -/
def Call.traceWith (config : Config) (clausesOf : String → List Clause) (steps : Nat)
    (calls : Call → Substitution → Trace Unit) (call : Call) (s : Substitution) : Trace Unit :=
  .step <| match call.functor, call.args with
  | "true", [] => .answer s .exhausted
  | "fail", [] => .exhausted
  | "false", [] => .exhausted
  | "!", [] => .answer s (.cut ())
  | ",", [left, right] => (left.trace calls s).andThen (right.trace calls)
  | ";", [left, right] =>
    match left.term, left.args with
    | .compound "->" _ _, [condition, consequent] =>
      (condition.trace calls s).commit (consequent.trace calls) (right.trace calls s)
    | _, _ => (left.trace calls s).orElse (right.trace calls s)
  | "->", [condition, consequent] =>
    (condition.trace calls s).commit (consequent.trace calls) .exhausted
  | "\\+", [goal] => (goal.trace calls s).commit (calls ⟨"fail", []⟩) (calls ⟨"true", []⟩ s)
  | "not", [goal] => (goal.trace calls s).commit (calls ⟨"fail", []⟩) (calls ⟨"true", []⟩ s)
  | "call", target :: extra =>
    let goal := s.store.deref s.context target
    match goal.term with
    | .atom name => (calls ⟨name, extra⟩ s).enclosed
    | .compound functor _ _ => (calls ⟨functor, goal.args ++ extra⟩ s).enclosed
    | .var _ => .error .instantiation
    | .number value => .error (.notCallable (.number value))
  | "=", [left, right] =>
    match (unify .byOccurrence config.occursCheck steps s.store s.context left right).verdict with
    | .unified extended => .answer extended .exhausted
    | .clash => .exhausted
    | .unfinished => .unfinished
  | "\\=", [left, right] =>
    match (unify .byOccurrence config.occursCheck steps s.store s.context left right).verdict with
    | .unified _ => .exhausted
    | .clash => .answer s .exhausted
    | .unfinished => .unfinished
  | functor, _ =>
    if functor = "," ∨ functor = ";" ∨ functor = "->" ∨ functor = "\\+" ∨ functor = "!" ∨
        functor = "call" then .error (.malformedControl call.indicator)
    else (call.traceClauses config steps calls s (clausesOf call.indicator)).enclosed

/-- Runs a call, down to a depth of recursion. -/
def Call.trace (config : Config) (clausesOf : String → List Clause) :
    Nat → Call → Substitution → Trace Unit
  | 0, _, _ => .unfinished
  | depth + 1, call, s =>
    call.traceWith config clausesOf depth (Call.trace config clausesOf depth) s

/-- Unifying in the store of a substitution is unifying on the substitution. -/
theorem Substitution.verdict_unify (s : Substitution) (occursCheck : Bool) (steps : Nat)
    (left right : Occurrence) :
    (unify .byOccurrence occursCheck steps s.store s.context left right).verdict =
      s.unifyPairs .byOccurrence occursCheck steps [] [(left, right)] :=
  s.verdict_unifyPairs _ _ _ _ _

section Reading

variable (config : Config) (clausesOf : String → List Clause) (steps : Nat)
  (calls : Call → Substitution → Trace Unit)

/-- What a goal means, as a search reads it off a call. -/
def Goal.trace (goal : Goal) (s : Substitution) : Trace Unit :=
  match goal with
  | .truth => .answer s .exhausted
  | .failure => .exhausted
  | .cut => .answer s (.cut ())
  | .both left right => (left.trace calls s).andThen (right.trace calls)
  | .either left right => (left.trace calls s).orElse (right.trace calls s)
  | .ifThen condition consequent alternative =>
    (condition.trace calls s).commit (consequent.trace calls)
      (alternative.elim .exhausted fun goal => goal.trace calls s)
  | .negation goal =>
    (goal.trace calls s).commit (calls ⟨"fail", []⟩) (calls ⟨"true", []⟩ s)
  | .call target extra =>
    match Call.ofOccurrence (s.store.deref s.context target) with
    | .error cause => .error cause
    | .ok callee => (calls (callee.addArgs extra) s).enclosed
  | .unify left right =>
    match s.unifyPairs .byOccurrence config.occursCheck steps [] [(left, right)] with
    | .unified extended => .answer extended .exhausted
    | .clash => .exhausted
    | .unfinished => .unfinished
  | .differ left right =>
    match s.unifyPairs .byOccurrence config.occursCheck steps [] [(left, right)] with
    | .unified _ => .exhausted
    | .clash => .answer s .exhausted
    | .unfinished => .unfinished
  | .predicate callee =>
    (callee.traceClauses config steps calls s (clausesOf callee.indicator)).enclosed

/-- A goal is the call that a search reads off it, or the error. -/
theorem Occurrence.trace_eq (o : Occurrence) (s : Substitution) :
    o.trace calls s = match Call.ofOccurrence (s.store.deref s.context o) with
      | .error cause => .step (.error cause)
      | .ok call => calls call s := by
  rw [trace, Call.ofOccurrence]
  cases hterm : (s.store.deref s.context o).term <;> rfl

/-- The disjunction that a search reads as an if-then-else has an if-then on its left. -/
theorem Goal.ifThen?_eq (o : Occurrence) :
    ifThen? o = match o.term, o.args with
      | .compound "->" _ _, [condition, consequent] => some (condition, consequent)
      | _, _ => none := by
  rw [ifThen?, Call.ofOccurrence]
  cases o.term with
  | atom name =>
    dsimp only
    split
    · next heq => cases heq
    · rfl
  | compound functor args varCount =>
    generalize o.args = parts
    by_cases hfunctor : functor = "->"
    · subst hfunctor
      rcases parts with _ | ⟨a, _ | ⟨b, _ | _⟩⟩ <;> rfl
    · split
      · next heq =>
        cases heq
        exact absurd rfl hfunctor
      · split
        · next heq _ =>
          cases heq
          exact absurd rfl hfunctor
        · rfl
  | var | number => rfl

/-- The recursion and a search read the same goal off a call. -/
theorem Call.traceWith_eq (call : Call) (s : Substitution) :
    call.traceWith config clausesOf steps calls s = match Goal.ofCall call with
      | .error cause => .step (.error cause)
      | .ok goal => .step (goal.trace config clausesOf steps calls s) := by
  obtain ⟨functor, args⟩ := call
  unfold traceWith
  dsimp only
  split
  · rfl
  · rfl
  · rfl
  · rfl
  · rfl
  · next left right =>
    have hread := Goal.ifThen?_eq left
    rw [Goal.ofCall]
    split
    · next hterm hargs =>
      rw [hterm, hargs] at hread
      simp only [hread]
      rfl
    · next hother =>
      split at hread
      · next hterm hargs => exact (hother _ _ _ _ hterm hargs).elim
      · simp only [hread]
        rfl
  · rfl
  · rfl
  · rfl
  · next target extra =>
    simp only [Goal.ofCall, Goal.trace, Call.ofOccurrence]
    cases hterm : (s.store.deref s.context target).term <;> rfl
  · simp only [Goal.ofCall, Goal.trace, s.verdict_unify]
  · simp only [Goal.ofCall, Goal.trace, s.verdict_unify]
  · have hreserved : (functor = "," ∨ functor = ";" ∨ functor = "->" ∨ functor = "\\+" ∨
        functor = "!" ∨ functor = "call") ↔ Goal.reserved.contains functor = true := by
      simp [Goal.reserved]
    -- No control construct fits, as the cases before this one tell.
    rw [if_congr hreserved rfl rfl]
    simp (disch := assumption) only [Goal.ofCall]
    by_cases hname : Goal.reserved.contains functor = true
    · rw [if_pos hname, if_pos hname]
    · rw [if_neg hname, if_neg hname]
      rfl

/-- The recursion tries the head of a clause as a search does. -/
theorem Call.traceClauses_cons (call : Call) (s : Substitution) (clause : Clause)
    (clauses : List Clause) :
    call.traceClauses config steps calls s (clause :: clauses) =
      match (s.allocate clause.varCount).unifyHead config steps call
        (clause.rename s.context).head with
      | .unified extended =>
        (if clause.isFact then .answer extended .exhausted
        else (clause.rename s.context).body.trace calls extended).orElse
          (call.traceClauses config steps calls s clauses)
      | .clash => call.traceClauses config steps calls s clauses
      | .unfinished => .unfinished := by
  obtain ⟨args, varCount, hterm, hargs⟩ := clause.exists_term_rename_head s.context
  have hpairs := (s.allocate clause.varCount).verdict_unifyPairs .byOccurrence config.occursCheck
    steps [] (call.args.zip (clause.rename s.context).head.args)
  change (unifyAll .byOccurrence config.occursCheck steps s.store (clause.rename s.context).context
    _).verdict = _ at hpairs
  rw [traceClauses, Substitution.unifyHead, hterm]
  simp only [hpairs, hargs, Compound.arity]
  by_cases hfits : call.functor = clause.head.functor ∧
      call.args.length = clause.head.args.length
  · rw [if_pos hfits, if_pos hfits]
    cases (s.allocate clause.varCount).unifyPairs .byOccurrence config.occursCheck steps []
        (call.args.zip (clause.rename s.context).head.args) with
    | unified extended =>
      dsimp only
      rw [← Clause.truth, if_congr clause.isFact_iff.symm rfl rfl]
    | clash | unfinished => rfl
  · rw [if_neg hfits, if_neg hfits]

end Reading

section Order

variable {config : Config} {clausesOf : String → List Clause} {m n : Nat}
  {calls calls' : Call → Substitution → Trace Unit}

/-- A goal is traced further when its calls are. -/
theorem Occurrence.trace_le (hcalls : ∀ call s, calls call s ≤ calls' call s) (o : Occurrence)
    (s : Substitution) : o.trace calls s ≤ o.trace calls' s := by
  rw [trace_eq, trace_eq]
  cases Call.ofOccurrence (s.store.deref s.context o) with
  | error cause => exact le_refl _
  | ok call => exact hcalls call s

/-- Clauses are traced further when more steps are granted and calls are traced further. -/
theorem Call.traceClauses_le (hmn : m ≤ n) (hcalls : ∀ call s, calls call s ≤ calls' call s)
    (call : Call) (s : Substitution) (clauses : List Clause) :
    call.traceClauses config m calls s clauses ≤ call.traceClauses config n calls' s clauses := by
  induction clauses with
  | nil => exact le_refl _
  | cons clause clauses ih =>
    rw [traceClauses_cons, traceClauses_cons]
    cases hhead : (s.allocate clause.varCount).unifyHead config m call
        (clause.rename s.context).head with
    | unfinished => exact Trace.unfinished_le _
    | clash =>
      rw [Substitution.unifyHead_mono hmn (by rw [hhead]; exact Verdict.noConfusion), hhead]
      exact ih
    | unified extended =>
      rw [Substitution.unifyHead_mono hmn (by rw [hhead]; exact Verdict.noConfusion), hhead]
      refine Trace.orElse_le_orElse ?_ ih
      split
      · exact le_refl _
      · exact Occurrence.trace_le hcalls _ _

/-- What a goal does respects the order. -/
theorem Goal.trace_le (hmn : m ≤ n) (hcalls : ∀ call s, calls call s ≤ calls' call s)
    (goal : Goal) (s : Substitution) :
    goal.trace config clausesOf m calls s ≤ goal.trace config clausesOf n calls' s := by
  have hgoal := Occurrence.trace_le hcalls
  cases goal with
  | truth | failure | cut => exact le_refl _
  | both left right => exact Trace.andThen_le_andThen (hgoal left s) (hgoal right)
  | either left right => exact Trace.orElse_le_orElse (hgoal left s) (hgoal right s)
  | ifThen condition consequent alternative =>
    refine Trace.commit_le_commit (hgoal condition s) (hgoal consequent) ?_
    cases alternative with
    | none => exact le_refl _
    | some goal => exact hgoal goal s
  | negation goal =>
    exact Trace.commit_le_commit (hgoal goal s) (fun s => hcalls _ s) (hcalls _ s)
  | call target extra =>
    simp only [trace]
    split
    · exact le_refl _
    · exact Trace.enclosed_le_enclosed (hcalls _ s)
  | unify left right | differ left right =>
    simp only [trace]
    cases hunify : s.unifyPairs .byOccurrence config.occursCheck m [] [(left, right)] with
    | unfinished => exact Trace.unfinished_le _
    | unified extended =>
      rw [Substitution.unifyPairs_mono hmn (by rw [hunify]; exact Verdict.noConfusion), hunify]
    | clash =>
      rw [Substitution.unifyPairs_mono hmn (by rw [hunify]; exact Verdict.noConfusion), hunify]
  | predicate call =>
    exact Trace.enclosed_le_enclosed (Call.traceClauses_le hmn hcalls call s _)

/-- A call is traced further when more steps are granted and the calls below it are traced further.
-/
theorem Call.traceWith_le (hmn : m ≤ n) (hcalls : ∀ call s, calls call s ≤ calls' call s)
    (call : Call) (s : Substitution) :
    call.traceWith config clausesOf m calls s ≤ call.traceWith config clausesOf n calls' s := by
  rw [traceWith_eq, traceWith_eq]
  cases Goal.ofCall call with
  | error cause => exact le_refl _
  | ok goal => exact Trace.step_le_step.2 (goal.trace_le hmn hcalls s)

/-- A deeper recursion goes on where a shallower one is cut short. -/
theorem Call.trace_le (hmn : m ≤ n) (call : Call) (s : Substitution) :
    call.trace config clausesOf m s ≤ call.trace config clausesOf n s := by
  induction m generalizing n call s with
  | zero => exact Trace.unfinished_le _
  | succ m ih =>
    obtain ⟨n, rfl⟩ : ∃ k, n = k + 1 := ⟨n - 1, by omega⟩
    have hle : m ≤ n := by omega
    exact traceWith_le hle (ih hle) call s

end Order

end ClauseResolution
