import ClauseResolution.Proofs.Substitution.Chain
import ClauseResolution.Search.Goal
import Mathlib.Order.Basic

/-!
# Traces of goals

A trace tells what running a goal does, in order: goals are taken up, answers are found,
and in the end the alternatives are exhausted, or cut off, or an error comes up. The
control constructs combine traces, and all of them are folds over a trace. A trace that
is cut short because the steps granted did not suffice lies below every trace that goes
on from there; all combinations of traces respect this order.
-/

namespace ClauseResolution

/-- What running a goal does. The targets of cuts are of type `κ`. -/
inductive Trace (κ : Type)
  /-- There are no more answers. -/
  | exhausted
  /-- There are no more answers, and the alternatives up to the target are dropped. -/
  | cut (target : κ)
  /-- An error comes up. -/
  | error (error : SearchError)
  /-- The steps granted did not suffice. -/
  | unfinished
  /-- A goal is taken up, or a condition is decided. -/
  | step (rest : Trace κ)
  /-- An answer is found. -/
  | answer (s : Substitution) (rest : Trace κ)

namespace Trace

variable {α β γ : Type}

/-- Replaces what a trace does at each answer, when it is exhausted and when it cuts. -/
def fold (t : Trace α) (onAnswer : Substitution → Trace β → Trace β) (onEnd : Trace β)
    (onCut : α → Trace β) : Trace β :=
  match t with
  | .exhausted => onEnd
  | .cut target => onCut target
  | .error cause => .error cause
  | .unfinished => .unfinished
  | .step rest => .step (rest.fold onAnswer onEnd onCut)
  | .answer s rest => onAnswer s (rest.fold onAnswer onEnd onCut)

/-- The trace with other ends. -/
def finish (t : Trace α) (onEnd : Trace β) (onCut : α → Trace β) : Trace β :=
  t.fold .answer onEnd onCut

/-- The second trace when the first one is exhausted. A cut drops it. -/
def orElse (t u : Trace α) : Trace α := t.finish u .cut

/-- A trace after each answer of another. A cut in it drops the further answers. -/
def andThen (t : Trace α) (after : Substitution → Trace α) : Trace α :=
  t.fold (fun s rest => (after s).orElse rest) .exhausted .cut

/-- The trace whose cuts have no effect outside. -/
def enclosed (t : Trace α) : Trace β := t.finish .exhausted fun _ => .exhausted

/-- A trace after the first answer of another, or an alternative if there is no answer. A
cut before the first answer has no effect outside. -/
def commit (t : Trace α) (after : Substitution → Trace β) (alternative : Trace β) : Trace β :=
  t.fold (fun s _ => .step (after s)) alternative fun _ => alternative

/-- The answers, in order. -/
def answers : Trace α → List Substitution
  | .step rest => answers rest
  | .answer s rest => s :: answers rest
  | _ => []

/-- How a trace ends that has no cuts: exhausted or with an error, if it ends. -/
def result : Trace Empty → Option (Except SearchError Unit)
  | .exhausted => some (.ok ())
  | .error cause => some (.error cause)
  | .unfinished => none
  | .step rest => result rest
  | .answer _ rest => result rest

section Laws

/-- Two folds after each other are one, if the second passes through what the first does
at an answer. -/
theorem fold_fold {onAnswer : Substitution → Trace β → Trace β} {onEnd : Trace β}
    {onCut : α → Trace β} {onAnswer' onAnswer'' : Substitution → Trace γ → Trace γ}
    {onEnd' : Trace γ} {onCut' : β → Trace γ}
    (h : ∀ s rest, (onAnswer s rest).fold onAnswer' onEnd' onCut' =
      onAnswer'' s (rest.fold onAnswer' onEnd' onCut')) (t : Trace α) :
    (t.fold onAnswer onEnd onCut).fold onAnswer' onEnd' onCut' =
      t.fold onAnswer'' (onEnd.fold onAnswer' onEnd' onCut')
        (fun target => (onCut target).fold onAnswer' onEnd' onCut') := by
  induction t with
  | exhausted | cut | error | unfinished => rfl
  | step rest ih => exact congrArg step ih
  | answer s rest ih => exact (h s _).trans (congrArg (onAnswer'' s) ih)

/-- A fold after other ends were set starts from these ends. -/
theorem fold_finish {onEnd : Trace β} {onCut : α → Trace β}
    {onAnswer' : Substitution → Trace γ → Trace γ} {onEnd' : Trace γ} {onCut' : β → Trace γ}
    (t : Trace α) :
    (t.finish onEnd onCut).fold onAnswer' onEnd' onCut' =
      t.fold onAnswer' (onEnd.fold onAnswer' onEnd' onCut')
        (fun target => (onCut target).fold onAnswer' onEnd' onCut') :=
  fold_fold (fun _ _ => rfl) t

/-- Where the first of two alternatives ends, the second one goes on to the end of both. -/
theorem finish_orElse {onEnd : Trace β} {onCut : α → Trace β} (t u : Trace α) :
    (t.orElse u).finish onEnd onCut = t.finish (u.finish onEnd onCut) onCut :=
  fold_finish t

end Laws

section Order

/-- The first trace is the second one, cut short where it is unfinished. -/
inductive Below : Trace α → Trace α → Prop
  | unfinished (t : Trace α) : Below .unfinished t
  | exhausted : Below .exhausted .exhausted
  | cut (target : α) : Below (.cut target) (.cut target)
  | error (cause : SearchError) : Below (.error cause) (.error cause)
  | step {t u : Trace α} (h : Below t u) : Below (.step t) (.step u)
  | answer (s : Substitution) {t u : Trace α} (h : Below t u) : Below (.answer s t) (.answer s u)

/-- A trace is below itself. -/
theorem Below.refl (t : Trace α) : Below t t := by
  induction t with
  | exhausted => exact .exhausted
  | cut target => exact .cut target
  | error cause => exact .error cause
  | unfinished => exact .unfinished _
  | step rest ih => exact .step ih
  | answer s rest ih => exact .answer s ih

/-- What is below a trace is below every trace that the other is below. -/
theorem Below.trans {t u v : Trace α} (h : Below t u) (h' : Below u v) : Below t v := by
  induction h generalizing v with
  | unfinished => exact .unfinished v
  | exhausted | cut | error => exact h'
  | step _ ih => cases h' with | step h' => exact .step (ih h')
  | answer s _ ih => cases h' with | answer _ h' => exact .answer s (ih h')

instance : Preorder (Trace α) where
  le := Below
  le_refl := Below.refl
  le_trans _ _ _ := Below.trans

/-- A trace that is not finished is below every other one. -/
theorem unfinished_le (t : Trace α) : .unfinished ≤ t := Below.unfinished t

/-- Traces are in order behind a step when they are in order. -/
theorem step_le_step {t u : Trace α} : t.step ≤ u.step ↔ t ≤ u := by
  constructor
  · intro h
    cases h with | step h => exact h
  · exact Below.step

/-- Traces are in order behind an answer when they are in order. -/
theorem answer_le_answer (s : Substitution) {t u : Trace α} : answer s t ≤ answer s u ↔ t ≤ u := by
  constructor
  · intro h
    cases h with | answer _ h => exact h
  · exact Below.answer s

/-- Folds respect the order if what they put in does. -/
theorem fold_le_fold {onAnswer onAnswer' : Substitution → Trace β → Trace β}
    {onEnd onEnd' : Trace β} {onCut onCut' : α → Trace β}
    (hanswer : ∀ s t u, t ≤ u → onAnswer s t ≤ onAnswer' s u) (hend : onEnd ≤ onEnd')
    (hcut : ∀ target, onCut target ≤ onCut' target) {t u : Trace α} (h : t ≤ u) :
    t.fold onAnswer onEnd onCut ≤ u.fold onAnswer' onEnd' onCut' := by
  change Below t u at h
  induction h with
  | unfinished => exact unfinished_le _
  | exhausted => exact hend
  | cut target => exact hcut target
  | error cause => exact le_refl _
  | step _ ih => exact step_le_step.2 ih
  | answer s _ ih => exact hanswer s _ _ ih

/-- Finishing a longer trace by longer ones gives a longer trace. -/
theorem finish_le_finish {onEnd onEnd' : Trace β} {onCut onCut' : α → Trace β}
    (hend : onEnd ≤ onEnd') (hcut : ∀ target, onCut target ≤ onCut' target) {t u : Trace α}
    (h : t ≤ u) : t.finish onEnd onCut ≤ u.finish onEnd' onCut' :=
  fold_le_fold (fun s _ _ => (answer_le_answer s).2) hend hcut h

/-- Longer alternatives give a longer trace. -/
theorem orElse_le_orElse {t t' u u' : Trace α} (h : t ≤ t') (h' : u ≤ u') :
    t.orElse u ≤ t'.orElse u' :=
  finish_le_finish h' (fun _ => le_refl _) h

/-- A longer trace with longer ones after its answers is longer. -/
theorem andThen_le_andThen {t t' : Trace α} {after after' : Substitution → Trace α} (h : t ≤ t')
    (hafter : ∀ s, after s ≤ after' s) : t.andThen after ≤ t'.andThen after' :=
  fold_le_fold (fun s _ _ => orElse_le_orElse (hafter s)) (le_refl _) (fun _ => le_refl _) h

/-- A longer trace is longer when it is enclosed. -/
theorem enclosed_le_enclosed {t u : Trace α} (h : t ≤ u) :
    (t.enclosed : Trace β) ≤ u.enclosed :=
  finish_le_finish (le_refl _) (fun _ => le_refl _) h

/-- A longer condition, with longer ones after it and instead of it, gives a longer trace. -/
theorem commit_le_commit {t t' : Trace α} {after after' : Substitution → Trace β}
    {alternative alternative' : Trace β} (h : t ≤ t') (hafter : ∀ s, after s ≤ after' s)
    (halternative : alternative ≤ alternative') :
    t.commit after alternative ≤ t'.commit after' alternative' :=
  fold_le_fold (fun s _ _ _ => step_le_step.2 (hafter s)) halternative (fun _ => halternative) h

/-- A trace that is cut short has a part of the answers. -/
theorem answers_prefix_of_le {t u : Trace α} (h : t ≤ u) : t.answers <+: u.answers := by
  change Below t u at h
  induction h with
  | unfinished => exact List.nil_prefix
  | exhausted | cut | error => exact List.prefix_rfl
  | step _ ih => exact ih
  | answer s _ ih => exact (List.prefix_cons_inj s).2 ih

/-- A trace that ends is not cut short. -/
theorem eq_of_le_of_result {t u : Trace Empty} (h : t ≤ u) {result : Except SearchError Unit}
    (hresult : t.result = some result) : u = t := by
  change Below t u at h
  induction h with
  | unfinished => cases hresult
  | exhausted | cut | error => rfl
  | step _ ih => rw [ih hresult]
  | answer s _ ih => rw [ih hresult]

end Order

end Trace

end ClauseResolution
