import ClauseResolution.Proofs.Search.Interpreter

/-!
# The meaning of a state of a search

The goals that remain and the branches to return to mean a trace: the goals that remain
run one after the other, and where their trace ends the newest branch is taken up that
was not cut off. Heights of the stack of branches are the targets of cuts. They do not
increase along the goals that remain, so no goal cuts off a branch that a goal before it
wants to return to. Each step of an exploration takes the first step off the meaning of
its state.
-/

namespace ClauseResolution

namespace Trace

variable {α : Type}

/-- Runs the goals that remain after each answer, and sends cuts to a barrier. -/
def pass (t : Trace Unit) (barrier : Nat) (next : Substitution → Trace Nat) : Trace Nat :=
  t.fold (fun s rest => (next s).orElse rest) .exhausted fun _ => .cut barrier

/-- Runs the goals that remain after each answer, and then what comes when nothing is left
or a height is cut to. -/
def into (t : Trace Unit) (barrier : Nat) (next : Substitution → Trace Nat) (onEnd : Trace α)
    (onCut : Nat → Trace α) : Trace α :=
  t.fold (fun s rest => (next s).finish rest onCut) onEnd fun _ => onCut barrier

section Laws

variable {barrier : Nat} {next : Substitution → Trace Nat} {onEnd : Trace α}
  {onCut onCut' : Nat → Trace α}

/-- To pass a trace on and then finish it is to run it into what follows. -/
theorem finish_pass (t : Trace Unit) :
    (t.pass barrier next).finish onEnd onCut = t.into barrier next onEnd onCut :=
  fold_fold (fun s _ => fold_finish (next s)) t

/-- Of two alternatives, the first one runs into the second one. -/
theorem into_orElse (t u : Trace Unit) :
    (t.orElse u).into barrier next onEnd onCut =
      t.into barrier next (u.into barrier next onEnd onCut) onCut :=
  fold_finish t

/-- A sequence runs its second goal into what follows, after each answer of the first. -/
theorem into_andThen (t : Trace Unit) (after : Substitution → Trace Unit) :
    (t.andThen after).into barrier next onEnd onCut =
      t.into barrier (fun s => (after s).pass barrier next) onEnd onCut := by
  refine fold_fold (fun s rest => ?_) t
  rw [finish_pass]
  exact into_orElse (after s) rest

/-- An enclosed trace runs into what follows, with its cuts sent to the height where it ends. -/
theorem into_enclosed (t : Trace Unit) {height : Nat} (hend : onCut height = onEnd) :
    (t.enclosed : Trace Unit).into barrier next onEnd onCut =
      t.into height next onEnd onCut := by
  rw [into, into, hend]
  exact fold_finish t

/-- A trace that commits goes on after its first answer only, or with the alternative. -/
theorem into_commit (t : Trace Unit) (after : Substitution → Trace Unit)
    (alternative : Trace Unit) :
    (t.commit after alternative).into barrier next onEnd onCut =
      t.fold (fun s _ => .step ((after s).into barrier next onEnd onCut))
        (alternative.into barrier next onEnd onCut)
        (fun _ => alternative.into barrier next onEnd onCut) :=
  fold_fold (fun _ _ => rfl) t

end Laws

section Cuts

/-- All cuts of a trace go to a height or below. -/
def CutsWithin (height : Nat) : Trace Nat → Prop
  | .cut target => target ≤ height
  | .step rest => CutsWithin height rest
  | .answer _ rest => CutsWithin height rest
  | _ => True

variable {height : Nat}

/-- What cuts within a height cuts within every larger one. -/
theorem CutsWithin.mono {t : Trace Nat} {height' : Nat} (h : t.CutsWithin height)
    (hle : height ≤ height') : t.CutsWithin height' := by
  induction t with
  | exhausted | error | unfinished => trivial
  | cut target => exact Nat.le_trans h hle
  | step rest ih => exact ih h
  | answer s rest ih => exact ih h

/-- Two alternatives that cut within a height do so together. -/
theorem CutsWithin.orElse {t u : Trace Nat} (ht : t.CutsWithin height)
    (hu : u.CutsWithin height) : (t.orElse u).CutsWithin height := by
  induction t with
  | exhausted => exact hu
  | error | unfinished => trivial
  | cut target => exact ht
  | step rest ih => exact ih ht
  | answer s rest ih => exact ih ht

/-- A trace that is passed on cuts within a height when its barrier and what follows do. -/
theorem CutsWithin.pass {barrier : Nat} {next : Substitution → Trace Nat} (t : Trace Unit)
    (hbarrier : barrier ≤ height) (hnext : ∀ s, (next s).CutsWithin height) :
    (t.pass barrier next).CutsWithin height := by
  induction t with
  | exhausted | error | unfinished => trivial
  | cut target => exact hbarrier
  | step rest ih => exact ih
  | answer s rest ih => exact (hnext s).orElse ih

/-- Only the heights that are cut to matter. -/
theorem CutsWithin.finish_congr {t : Trace Nat} (h : t.CutsWithin height) {onEnd : Trace α}
    {onCut onCut' : Nat → Trace α} (hcut : ∀ target ≤ height, onCut target = onCut' target) :
    t.finish onEnd onCut = t.finish onEnd onCut' := by
  induction t with
  | exhausted | error | unfinished => rfl
  | cut target => exact hcut target h
  | step rest ih => exact congrArg step (ih h)
  | answer s rest ih => exact congrArg (answer s) (ih h)

end Cuts

end Trace

/-- The height that cuts in a frame go to. -/
def Frame.height : Frame → Nat
  | .goal _ barrier _ => barrier
  | .call _ barrier _ => barrier
  | .cutTo height => height

/-- The heights of frames do not increase, from a given height on. -/
def Frame.Descending (height : Nat) : List Frame → Prop
  | [] => True
  | frame :: frames => frame.height ≤ height ∧ Frame.Descending frame.height frames

/-- Frames below a height are below every greater height. -/
theorem Frame.Descending.mono {height height' : Nat} {frames : List Frame}
    (h : Frame.Descending height frames) (hle : height ≤ height') :
    Frame.Descending height' frames := by
  cases frames with
  | nil => trivial
  | cons frame frames => exact ⟨h.1.trans hle, h.2⟩

/-- The frames that a branch takes up cut to heights below the branch. -/
def Branch.Nested (height : Nat) (branch : Branch) : Prop :=
  match branch.alternative with
  | .goal goal barrier depth next => Frame.Descending height (.goal goal barrier depth :: next)
  | .clauses _ _ _ next => Frame.Descending height next

/-- Each branch cuts to heights below it. -/
def Branch.AllNested : List Branch → Prop
  | [] => True
  | branch :: branches => branch.Nested branches.length ∧ Branch.AllNested branches

/-- Nested branches stay nested when the newest of them are dropped. -/
theorem Branch.AllNested.drop {branches : List Branch} (h : Branch.AllNested branches)
    (count : Nat) : Branch.AllNested (branches.drop count) := by
  induction count generalizing branches with
  | zero => exact h
  | succ count ih =>
    cases branches with
    | nil => trivial
    | cons branch branches => exact ih h.2

/-- The goals that remain and the branches cut only to heights below them. -/
structure Exploration.Nested (e : Exploration) : Prop where
  /-- The goals that remain cut below the present height, and none above one before it. -/
  continuation : Frame.Descending e.branches.length e.continuation
  /-- Each branch cuts to heights below it. -/
  branches : Branch.AllNested e.branches

/-- One of the limits of a search is exceeded. -/
def SearchError.IsLimit : SearchError → Prop
  | .depthExceeded _ => True
  | .inferenceLimit _ => True
  | _ => False

/-- A step exceeds one of the limits. -/
def Stage.Limited : Stage → Prop
  | .error cause => cause.IsLimit
  | _ => False

section Meaning

variable (config : Config) (clausesOf : String → List Clause) (depth steps : Nat)

/-- Runs the goals that remain, down to a depth of recursion. -/
def Frame.traceAll : List Frame → Substitution → Trace Nat
  | [], s => .answer s .exhausted
  | .goal target barrier _ :: next, s =>
    (target.trace (Call.trace config clausesOf depth) s).pass barrier (Frame.traceAll next)
  | .call callee barrier _ :: next, s =>
    (callee.trace config clausesOf depth s).pass barrier (Frame.traceAll next)
  | .cutTo height :: next, s => .step ((Frame.traceAll next s).orElse (.cut height))

/-- Runs the goals that remain, the first of them by what calls do. -/
def Frame.traceFrom (calls : Call → Substitution → Trace Unit) :
    List Frame → Substitution → Trace Nat
  | .goal target barrier _ :: next, s =>
    (target.trace calls s).pass barrier (Frame.traceAll config clausesOf depth next)
  | .call callee barrier _ :: next, s =>
    (calls callee s).pass barrier (Frame.traceAll config clausesOf depth next)
  | frames, s => Frame.traceAll config clausesOf depth frames s

/-- Runs what a branch leaves to be tried. Cuts in the clauses go to the height of the
branch. -/
def Branch.trace (height : Nat) (branch : Branch) : Trace Nat :=
  match branch.alternative with
  | .goal goal barrier nesting next =>
    Frame.traceAll config clausesOf depth (.goal goal barrier nesting :: next) branch.substitution
  | .clauses call untried _ next =>
    (call.traceClauses config steps (Call.trace config clausesOf depth) branch.substitution
      untried).pass height (Frame.traceAll config clausesOf depth next)

/-- Takes up the branches below a height, the newest first. -/
def Branch.fallback : List Branch → Nat → Trace Empty
  | [], _ => .exhausted
  | branch :: branches, height =>
    if height ≤ branches.length then Branch.fallback branches height
    else (branch.trace config clausesOf depth steps branches.length).finish
      (Branch.fallback branches branches.length) (Branch.fallback branches)

/-- The trace of all that remains to be done in a state. -/
def Exploration.trace (e : Exploration) : Trace Empty :=
  (Frame.traceAll config clausesOf depth e.continuation e.substitution).finish
    (Branch.fallback config clausesOf depth steps e.branches e.branches.length)
    (Branch.fallback config clausesOf depth steps e.branches)

/-- The trace of all that remains to be done, the first goal by what calls do. -/
def Exploration.traceFrom (calls : Call → Substitution → Trace Unit) (e : Exploration) :
    Trace Empty :=
  (Frame.traceFrom config clausesOf depth calls e.continuation e.substitution).finish
    (Branch.fallback config clausesOf depth steps e.branches e.branches.length)
    (Branch.fallback config clausesOf depth steps e.branches)

/-- The trace of all that remains to be done after a step, and the step itself. -/
def Stage.trace : Stage → Trace Empty
  | .proceed e => .step (e.trace config clausesOf depth steps)
  | .backtrack e =>
    .step (Branch.fallback config clausesOf depth steps e.branches e.branches.length)
  | .solution e => .answer e.substitution
    (Branch.fallback config clausesOf depth steps e.branches e.branches.length)
  | .error cause => .step (.error cause)
  | .unfinished => .step .unfinished

/-- The trace of all that remains to be done after going back. -/
def Exploration.Return.trace : Exploration.Return → Trace Empty
  | .resumed e => e.trace config clausesOf depth steps
  | .exhausted _ => .exhausted
  | .unfinished => .unfinished

end Meaning

section Fallback

variable {config : Config} {clausesOf : String → List Clause} {depth steps : Nat}

/-- The goals that remain cut to heights at or below the first of them. -/
theorem Frame.Descending.cutsWithin_traceAll {height : Nat} {frames : List Frame}
    (h : Frame.Descending height frames) (s : Substitution) :
    (Frame.traceAll config clausesOf depth frames s).CutsWithin height := by
  induction frames generalizing height s with
  | nil => trivial
  | cons frame frames ih =>
    obtain ⟨hle, hrest⟩ := h
    have hnext : ∀ s, (Frame.traceAll config clausesOf depth frames s).CutsWithin height :=
      fun s => (ih hrest s).mono hle
    cases frame with
    | goal goal barrier nesting => exact .pass _ hle hnext
    | call call barrier nesting => exact .pass _ hle hnext
    | cutTo target => exact (hnext s).orElse hle

/-- A new branch is passed over by cuts below it. -/
theorem Branch.fallback_cons_of_le {branch : Branch} {branches : List Branch} {height : Nat}
    (h : height ≤ branches.length) :
    Branch.fallback config clausesOf depth steps (branch :: branches) height =
      Branch.fallback config clausesOf depth steps branches height := by
  rw [fallback, if_pos h]

/-- The newest branch is taken up first. -/
theorem Branch.fallback_cons (branch : Branch) (branches : List Branch) :
    Branch.fallback config clausesOf depth steps (branch :: branches) (branches.length + 1) =
      (branch.trace config clausesOf depth steps branches.length).finish
        (Branch.fallback config clausesOf depth steps branches branches.length)
        (Branch.fallback config clausesOf depth steps branches) := by
  rw [fallback, if_neg (by omega)]

/-- A branch that was left for a goal runs the goal and then the frames that came after it. -/
theorem Branch.fallback_goal (s : Substitution) (goal : Occurrence) (barrier nesting : Nat)
    (next : List Frame) (branches : List Branch) :
    Branch.fallback config clausesOf depth steps (⟨s, .goal goal barrier nesting next⟩ :: branches)
        (branches.length + 1) =
      (goal.trace (Call.trace config clausesOf depth) s).into barrier
        (Frame.traceAll config clausesOf depth next)
        (Branch.fallback config clausesOf depth steps branches branches.length)
        (Branch.fallback config clausesOf depth steps branches) :=
  (Branch.fallback_cons _ branches).trans (Trace.finish_pass _)

/-- Dropping the branches above a height does not matter to cuts below it. -/
theorem Branch.fallback_drop (branches : List Branch) {height target : Nat}
    (h : target ≤ height) :
    Branch.fallback config clausesOf depth steps (branches.drop (branches.length - height)) target =
      Branch.fallback config clausesOf depth steps branches target := by
  induction branches with
  | nil => rw [List.drop_nil]
  | cons branch branches ih =>
    by_cases hle : height ≤ branches.length
    · have hcount : (branch :: branches).length - height = branches.length - height + 1 := by
        rw [List.length_cons]
        omega
      rw [hcount, List.drop_succ_cons, ih, fallback_cons_of_le (h.trans hle)]
    · have hcount : (branch :: branches).length - height = 0 := by
        rw [List.length_cons]
        omega
      rw [hcount, List.drop_zero]

end Fallback

section Steps

variable (config : Config) (clausesOf : String → List Clause) (depth steps : Nat)

/-- The clauses that match a call run from the first match on. -/
theorem Call.traceClauses_eq (calls : Call → Substitution → Trace Unit) (call : Call)
    (s : Substitution) (clauses : List Clause) :
    call.traceClauses config steps calls s clauses =
      match s.firstMatch config steps call clauses with
      | .missing => .exhausted
      | .unfinished => .unfinished
      | .found extended body isFact untried =>
        (if isFact then .answer extended .exhausted else body.trace calls extended).orElse
          (call.traceClauses config steps calls s untried) := by
  induction clauses with
  | nil => rfl
  | cons clause clauses ih =>
    rw [traceClauses_cons, Substitution.firstMatch]
    cases (s.allocate clause.varCount).unifyHead config steps call
      (clause.rename s.context).head with
    | unified extended => rfl
    | clash => exact ih
    | unfinished => rfl

/-- The atom `true` is run as a call. -/
theorem Occurrence.trace_truth (calls : Call → Substitution → Trace Unit) (s : Substitution) :
    (Occurrence.whole 0 Clause.truth).trace calls s = calls ⟨"true", []⟩ s := by
  have hsettled : s.Settled (.whole 0 Clause.truth) := rfl
  rw [trace_eq, s.deref_store, Substitution.deref_of_settled hsettled]
  rfl

namespace Exploration

/-- A state whose first goals cut to heights below the branch added last. -/
theorem trace_cons_branch {s : Substitution} {frames : List Frame} {branch : Branch}
    {branches : List Branch} {inferences : Nat}
    (h : Frame.Descending branches.length frames) :
    trace config clausesOf depth steps ⟨s, frames, branch :: branches, inferences⟩ =
      (Frame.traceAll config clausesOf depth frames s).finish
        ((branch.trace config clausesOf depth steps branches.length).finish
          (Branch.fallback config clausesOf depth steps branches branches.length)
          (Branch.fallback config clausesOf depth steps branches))
        (Branch.fallback config clausesOf depth steps branches) := by
  rw [trace]
  dsimp only
  rw [List.length_cons, Branch.fallback_cons]
  exact (h.cutsWithin_traceAll s).finish_congr fun target htarget =>
    Branch.fallback_cons_of_le htarget

/-- Cutting to a height leaves the branches below it, and the goals that remain cut no
higher. -/
theorem trace_cut {s : Substitution} {next : List Frame} {branches : List Branch}
    {inferences height : Nat} (hheight : height ≤ branches.length)
    (hnext : Frame.Descending height next) :
    (cut height ⟨s, next, branches, inferences⟩).trace config clausesOf depth steps =
      (Frame.traceAll config clausesOf depth next s).finish
        (Branch.fallback config clausesOf depth steps branches height)
        (Branch.fallback config clausesOf depth steps branches) := by
  have hlength : (branches.drop (branches.length - height)).length = height := by
    rw [List.length_drop]
    omega
  rw [trace, cut]
  dsimp only
  rw [hlength, Branch.fallback_drop branches (le_refl height)]
  exact (hnext.cutsWithin_traceAll s).finish_congr fun target htarget =>
    Branch.fallback_drop branches htarget

/-- Entering a clause takes the first step off the meaning of the clauses. -/
theorem trace_enter (call : Call) (clauses : List Clause) (nesting : Nat) (next : List Frame)
    (e : Exploration) (hnext : Frame.Descending e.branches.length next) :
    (e.enter config steps call clauses nesting next).trace config clausesOf depth steps =
      .step ((call.traceClauses config steps (Call.trace config clausesOf depth) e.substitution
        clauses).into e.branches.length (Frame.traceAll config clausesOf depth next)
        (Branch.fallback config clausesOf depth steps e.branches e.branches.length)
        (Branch.fallback config clausesOf depth steps e.branches)) := by
  rw [enter, Call.traceClauses_eq]
  cases e.substitution.firstMatch config steps call clauses with
  | missing => rfl
  | unfinished => rfl
  | found extended body isFact untried =>
    dsimp only
    rw [Stage.trace, Trace.into_orElse]
    refine congrArg Trace.step ?_
    -- The frames that are entered run the body, or nothing for a fact, before the rest.
    have hframes : Frame.Descending e.branches.length
        (if isFact = true then next else .goal body e.branches.length (nesting + 1) :: next) := by
      cases isFact with
      | true => exact hnext
      | false => exact ⟨le_refl _, hnext⟩
    have hfinish : ∀ onEnd : Trace Empty, ∀ onCut,
        (Frame.traceAll config clausesOf depth (if isFact = true then next else
          .goal body e.branches.length (nesting + 1) :: next) extended).finish onEnd onCut =
        Trace.into (if isFact = true then .answer extended .exhausted else
          body.trace (Call.trace config clausesOf depth) extended) e.branches.length
          (Frame.traceAll config clausesOf depth next) onEnd onCut := by
      intro onEnd onCut
      cases isFact with
      | true => rfl
      | false => exact Trace.finish_pass _
    cases untried with
    | nil => exact hfinish _ _
    | cons clause untried =>
      refine (trace_cons_branch config clausesOf depth steps hframes).trans ((hfinish _ _).trans ?_)
      rw [Branch.trace]
      dsimp only
      rw [Trace.finish_pass]

/-- Going back takes up the meaning of the branches. -/
theorem trace_backtrack (inferences : Nat) {branches : List Branch}
    (h : Branch.AllNested branches) :
    (backtrack config steps inferences branches).trace config clausesOf depth steps =
      Branch.fallback config clausesOf depth steps branches branches.length := by
  induction branches with
  | nil => rfl
  | cons branch branches ih =>
    obtain ⟨hbranch, hbranches⟩ := h
    rw [List.length_cons, Branch.fallback_cons]
    match branch with
    | ⟨s, .goal goal barrier nesting next⟩ => rfl
    | ⟨s, .clauses call untried nesting next⟩ =>
      have henter := trace_enter config clausesOf depth steps call untried nesting next
        ⟨s, next, branches, inferences⟩ hbranch
      rw [Branch.trace]
      dsimp only at henter ⊢
      rw [Trace.finish_pass, backtrack]
      cases hstage : enter config steps call untried nesting next
          ⟨s, next, branches, inferences⟩ with
      | proceed e' =>
        rw [hstage] at henter
        exact Trace.step.inj henter
      | unfinished =>
        rw [hstage] at henter
        exact Trace.step.inj henter
      | backtrack e' =>
        obtain rfl := eq_of_enter_eq_backtrack hstage
        rw [hstage] at henter
        exact (ih hbranches).trans (Trace.step.inj henter)
      | solution e' | error cause =>
        rw [enter] at hstage
        cases hmatch : s.firstMatch config steps call untried <;> simp [hmatch] at hstage

/-- A failure is what it is, whatever goals come after it. -/
theorem finish_traceAll_fail {α : Type} (barrier nesting : Nat) (next : Substitution → Trace Nat)
    (s : Substitution) (onEnd : Trace α) (onCut : Nat → Trace α) :
    (Frame.traceAll config clausesOf depth [.call ⟨"fail", []⟩ barrier nesting] s).finish onEnd
      onCut = (Call.trace config clausesOf depth ⟨"fail", []⟩ s).into barrier next onEnd onCut := by
  cases depth with
  | zero => rfl
  | succ depth => rfl

/-- A condition that is run under an alternative decides between the goals after it and
the alternative. -/
theorem trace_condition (t : Trace Unit) (after : Substitution → Trace Nat)
    (branches : List Branch) {onEnd : Trace Empty} {onCut : Nat → Trace Empty} {inner : Nat}
    (hinner : onCut inner = onEnd) (hcut : ∀ target ≤ branches.length, onCut target =
      Branch.fallback config clausesOf depth steps branches target)
    (hafter : ∀ s, (after s).CutsWithin branches.length) :
    t.into inner (fun s => .step ((after s).orElse (.cut branches.length))) onEnd onCut =
      t.fold (fun s _ => .step ((after s).finish
        (Branch.fallback config clausesOf depth steps branches branches.length)
        (Branch.fallback config clausesOf depth steps branches))) onEnd fun _ => onEnd := by
  have hstep : ∀ s rest, Trace.finish (.step ((after s).orElse (.cut branches.length))) rest onCut =
      .step ((after s).finish
        (Branch.fallback config clausesOf depth steps branches branches.length)
        (Branch.fallback config clausesOf depth steps branches)) := by
    intro s rest
    refine congrArg Trace.step ?_
    refine (Trace.finish_orElse (after s) _).trans ?_
    refine Eq.trans ?_ ((hafter s).finish_congr hcut)
    exact congrArg ((after s).finish · onCut) (hcut _ (le_refl _))
  rw [Trace.into, hinner]
  simp only [hstep]

/-- Resolving a call that no limit stops takes the first step off the meaning of its clauses. -/
theorem trace_resolve (call : Call) (nesting : Nat) (e : Exploration)
    (hnext : Frame.Descending e.branches.length e.continuation)
    (hlimit : ¬ (e.resolve config clausesOf steps call nesting).Limited) :
    (e.resolve config clausesOf steps call nesting).trace config clausesOf depth steps =
      .step ((call.traceClauses config steps (Call.trace config clausesOf depth) e.substitution
        (clausesOf call.indicator)).into e.branches.length
        (Frame.traceAll config clausesOf depth e.continuation)
        (Branch.fallback config clausesOf depth steps e.branches e.branches.length)
        (Branch.fallback config clausesOf depth steps e.branches)) := by
  obtain ⟨s, next, branches, inferences⟩ := e
  rw [resolve] at hlimit ⊢
  split
  · next hdepth =>
    rw [if_pos hdepth] at hlimit
    exact absurd trivial hlimit
  · next hdepth =>
    rw [if_neg hdepth] at hlimit
    split
    · next limit hcount =>
      simp only [hcount] at hlimit
      exact absurd trivial hlimit
    · exact trace_enter config clausesOf depth steps call _ nesting next
        ⟨s, next, branches, inferences + 1⟩ hnext

/-- Doing what a goal asks for takes the first step off its meaning. -/
theorem trace_perform (goal : Goal) (barrier nesting : Nat) (e : Exploration)
    (hbarrier : barrier ≤ e.branches.length)
    (hnext : Frame.Descending barrier e.continuation)
    (hlimit : ¬ (e.perform config clausesOf steps goal barrier nesting).Limited) :
    (e.perform config clausesOf steps goal barrier nesting).trace config clausesOf depth steps =
      .step ((goal.trace config clausesOf steps (Call.trace config clausesOf depth)
        e.substitution).into barrier (Frame.traceAll config clausesOf depth e.continuation)
        (Branch.fallback config clausesOf depth steps e.branches e.branches.length)
        (Branch.fallback config clausesOf depth steps e.branches)) := by
  obtain ⟨s, next, branches, inferences⟩ := e
  dsimp only at hbarrier hnext ⊢
  cases goal with
  | truth | failure => rfl
  | cut => exact congrArg Trace.step (trace_cut config clausesOf depth steps hbarrier hnext)
  | both left right =>
    refine congrArg Trace.step ?_
    rw [Goal.trace, Trace.into_andThen]
    exact Trace.finish_pass _
  | either left right =>
    refine congrArg Trace.step ?_
    rw [Goal.trace, Trace.into_orElse]
    have hframes : Frame.Descending branches.length (.goal left barrier nesting :: next) :=
      ⟨hbarrier, hnext⟩
    refine (trace_cons_branch config clausesOf depth steps hframes).trans ?_
    refine (Trace.finish_pass _).trans ?_
    exact congrArg (Trace.into _ _ _ · _) (Trace.finish_pass _)
  | ifThen condition consequent alternative =>
    have hafter : ∀ s, ((consequent.trace (Call.trace config clausesOf depth) s).pass barrier
        (Frame.traceAll config clausesOf depth next)).CutsWithin branches.length := fun s =>
      (Trace.CutsWithin.pass _ (le_refl barrier) hnext.cutsWithin_traceAll).mono hbarrier
    refine congrArg Trace.step ?_
    rw [Goal.trace, Trace.into_commit]
    simp only [← Trace.finish_pass (consequent.trace _ _)]
    cases alternative with
    | none =>
      refine (Trace.finish_pass _).trans ?_
      exact trace_condition config clausesOf depth steps _ _ branches rfl (fun _ _ => rfl) hafter
    | some goal =>
      refine (Trace.finish_pass _).trans ?_
      refine (trace_condition config clausesOf depth steps _ _ branches rfl
        (fun _ htarget => Branch.fallback_cons_of_le htarget) hafter).trans ?_
      exact congrArg (fun onEnd => Trace.fold _ _ onEnd fun _ => onEnd)
        (Branch.fallback_goal s goal barrier nesting next branches)
  | negation goal =>
    have hfail : Frame.Descending branches.length [.call ⟨"fail", []⟩ barrier nesting] :=
      ⟨hbarrier, trivial⟩
    refine congrArg Trace.step ?_
    rw [Goal.trace, Trace.into_commit]
    refine (Trace.finish_pass _).trans ?_
    refine (trace_condition config clausesOf depth steps _ _ branches rfl
      (fun _ htarget => Branch.fallback_cons_of_le htarget) hfail.cutsWithin_traceAll).trans ?_
    have htruth : Branch.fallback config clausesOf depth steps _ _ = _ :=
      Branch.fallback_goal s (.whole 0 Clause.truth) barrier nesting next branches
    rw [Occurrence.trace_truth] at htruth
    simp only [finish_traceAll_fail config clausesOf depth barrier nesting
      (Frame.traceAll config clausesOf depth next)]
    exact congrArg (fun onEnd => Trace.fold _ _ onEnd fun _ => onEnd) htruth
  | call target extra =>
    rw [perform, Goal.trace, s.deref_store]
    cases Call.ofOccurrence (s.deref target) with
    | error cause => rfl
    | ok callee =>
      refine congrArg Trace.step ?_
      dsimp only
      rw [Trace.into_enclosed _ (rfl : Branch.fallback config clausesOf depth steps branches
        branches.length = _)]
      exact Trace.finish_pass _
  | unify left right =>
    rw [perform, Goal.trace]
    cases s.unifyPairs .byOccurrence config.occursCheck steps [] [(left, right)] with
    | unified extended | clash | unfinished => rfl
  | differ left right =>
    rw [perform, Goal.trace]
    cases s.unifyPairs .byOccurrence config.occursCheck steps [] [(left, right)] with
    | unified extended | clash | unfinished => rfl
  | predicate call =>
    refine (trace_resolve config clausesOf depth steps call nesting ⟨s, next, branches, inferences⟩
      (hnext.mono hbarrier) hlimit).trans ?_
    rw [Goal.trace, Trace.into_enclosed _ (rfl : Branch.fallback config clausesOf depth steps
      branches branches.length = _)]

/-- Doing what a call asks for takes the first step off its meaning. -/
theorem trace_performCall (call : Call) (barrier nesting : Nat) (e : Exploration)
    (hbarrier : barrier ≤ e.branches.length)
    (hnext : Frame.Descending barrier e.continuation)
    (hlimit : ¬ (e.performCall config clausesOf steps call barrier nesting).Limited) :
    (e.performCall config clausesOf steps call barrier nesting).trace config clausesOf depth steps =
      (call.traceWith config clausesOf steps (Call.trace config clausesOf depth)
        e.substitution).into barrier (Frame.traceAll config clausesOf depth e.continuation)
        (Branch.fallback config clausesOf depth steps e.branches e.branches.length)
        (Branch.fallback config clausesOf depth steps e.branches) := by
  rw [performCall] at hlimit ⊢
  rw [Call.traceWith_eq]
  cases hgoal : Goal.ofCall call with
  | error cause => rfl
  | ok goal =>
    simp only [hgoal] at hlimit
    exact trace_perform config clausesOf depth steps goal barrier nesting e hbarrier hnext hlimit

/-- A step of an exploration takes the first step off the meaning of its state. -/
theorem trace_advance (e : Exploration) (h : e.Nested)
    (hlimit : ¬ (e.advance config clausesOf steps).Limited) :
    (e.advance config clausesOf steps).trace config clausesOf depth steps =
      e.traceFrom config clausesOf depth steps
        (Call.traceWith config clausesOf steps (Call.trace config clausesOf depth)) := by
  obtain ⟨s, continuation, branches, inferences⟩ := e
  obtain ⟨hcontinuation, hbranches⟩ := h
  match continuation with
  | [] => rfl
  | .cutTo height :: next =>
    refine congrArg Trace.step ?_
    refine Eq.trans ?_ (Trace.finish_orElse _ _).symm
    exact trace_cut config clausesOf depth steps hcontinuation.1 hcontinuation.2
  | .call call barrier nesting :: next =>
    refine Eq.trans ?_ (Trace.finish_pass _).symm
    exact trace_performCall config clausesOf depth steps call barrier nesting
      ⟨s, next, branches, inferences⟩ hcontinuation.1 hcontinuation.2 hlimit
  | .goal goal barrier nesting :: next =>
    refine Eq.trans ?_ (Trace.finish_pass _).symm
    rw [advance] at hlimit ⊢
    rw [Occurrence.trace_eq, s.deref_store]
    cases hcall : Call.ofOccurrence (s.deref goal) with
    | error cause => rfl
    | ok call =>
      simp only [hcall] at hlimit
      exact trace_performCall config clausesOf depth steps call barrier nesting
        ⟨s, next, branches, inferences⟩ hcontinuation.1 hcontinuation.2 hlimit

end Exploration

end Steps

end ClauseResolution
