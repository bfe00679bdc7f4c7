import ClauseResolution.Search.State
import Mathlib.Tactic.Simproc.ExistsAndEq

/-!
# Goals with other occurrences

Which goal a call asks for depends on its functor and the number of its arguments, and for an
if-then on the functor at its root. So when occurrences are replaced by others from which the same
calls are read, the goals stay the same, with the occurrences replaced.
-/

namespace ClauseResolution

/-- The call with other arguments. -/
def Call.map (f : Occurrence → Occurrence) (call : Call) : Call := ⟨call.functor, call.args.map f⟩

/-- What a goal asks for, with other occurrences. -/
def Goal.map (f : Occurrence → Occurrence) : Goal → Goal
  | .truth => .truth
  | .failure => .failure
  | .cut => .cut
  | .both left right => .both (f left) (f right)
  | .either left right => .either (f left) (f right)
  | .ifThen condition consequent alternative =>
    .ifThen (f condition) (f consequent) (alternative.map f)
  | .negation goal => .negation (f goal)
  | .call target extra => .call (f target) (extra.map f)
  | .unify left right => .unify (f left) (f right)
  | .differ left right => .differ (f left) (f right)
  | .predicate callee => .predicate (callee.map f)

/-- The frame with other occurrences. -/
def Frame.map (f : Occurrence → Occurrence) : Frame → Frame
  | .goal target barrier depth => .goal (f target) barrier depth
  | .call callee barrier depth => .call (callee.map f) barrier depth
  | .cutTo height => .cutTo height

/-- From other occurrences the same calls are read, with the occurrences replaced. -/
def KeepsCalls (f : Occurrence → Occurrence) : Prop :=
  ∀ o, Call.ofOccurrence (f o) = (Call.ofOccurrence o).map (Call.map f)

variable {f : Occurrence → Occurrence}

namespace Call

/-- A call has the same indicator with other arguments. -/
@[simp] theorem indicator_map (call : Call) : (call.map f).indicator = call.indicator := by
  rw [indicator, indicator, map, List.length_map]

/-- Arguments can be replaced before or after more are added. -/
theorem addArgs_map (call : Call) (extra : List Occurrence) :
    (call.map f).addArgs (extra.map f) = (call.addArgs extra).map f := by
  rw [addArgs, addArgs, map, map, List.map_append]

end Call

namespace Goal

/-- Whether a goal is an if-then does not depend on the occurrences in it. -/
theorem ifThen?_map (hf : KeepsCalls f) (o : Occurrence) :
    ifThen? (f o) = (ifThen? o).map (Prod.map f f) := by
  rw [ifThen?, ifThen?, hf]
  cases Call.ofOccurrence o with
  | error cause => rfl
  | ok call =>
    obtain ⟨functor, args⟩ := call
    by_cases hname : functor = "->"
    · subst hname
      rcases args with _ | ⟨a, _ | ⟨b, _ | ⟨c, rest⟩⟩⟩ <;> rfl
    · rcases args with _ | ⟨a, _ | ⟨b, _ | ⟨c, rest⟩⟩⟩ <;> simp [Except.map, Call.map, hname]

/-- A call with other arguments asks for the same goal with other occurrences. -/
theorem ofCall_map (hf : KeepsCalls f) (call : Call) :
    ofCall (call.map f) = (ofCall call).map (map f) := by
  have hindicator := call.indicator_map (f := f)
  have hifThen := ifThen?_map hf
  fun_cases ofCall call <;> simp [ofCall, Call.map, map, Except.map, *]
  -- A name that is kept, or the name of a predicate: no other case applies to other arguments.
  case case14 | case15 =>
    split <;> simp_all [Call.map, List.map_eq_cons_iff]

end Goal

end ClauseResolution
