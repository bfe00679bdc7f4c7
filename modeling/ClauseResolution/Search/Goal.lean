import ClauseResolution.Clause.Basic
import ClauseResolution.Term.Occurrence

/-!
# Goals

A goal is read off an occurrence once the variable at its root is followed. It is a call,
which is a functor with arguments; an atom is called as a functor without arguments.
Control constructs are recognised by name and arity. A few names are kept for control
constructs in every arity.
-/

namespace ClauseResolution

/-- What ends a search other than running out of alternatives. -/
inductive SearchError
  /-- A goal is an unbound variable. -/
  | instantiation
  /-- A goal is a number. -/
  | notCallable (goal : Term)
  /-- A control construct has the wrong arity. -/
  | malformedControl (indicator : String)
  /-- Clauses are nested too deep. -/
  | depthExceeded (limit : Nat)
  /-- Too many predicates were called. -/
  | inferenceLimit (limit : Nat)
  /-- The search was asked to stop. -/
  | interrupted
  /-- A term is no clause. -/
  | clause (error : ClauseError)

/-- The wording of an error. -/
def SearchError.message : SearchError → String
  | .instantiation => "instantiation error: goal is an unbound variable"
  | .notCallable goal => "type error: " ++ goal.text ++ " is not callable"
  | .malformedControl indicator => "malformed control construct " ++ indicator
  | .depthExceeded limit =>
    "search too deep: resolution depth limit of " ++ toString limit ++ " exceeded"
  | .inferenceLimit limit => "inference limit of " ++ toString limit ++ " exceeded"
  | .interrupted => "query interrupted"
  | .clause error => error.message

/-- A functor applied to arguments. The arguments need not stand in one text, for a call
may be given further arguments. -/
structure Call where
  /-- The functor. -/
  functor : String
  /-- The arguments, in order. -/
  args : List Occurrence

namespace Call

/-- The predicate indicator. -/
def indicator (call : Call) : String := ClauseResolution.indicator call.functor call.args.length

/-- The call with further arguments. -/
def addArgs (call : Call) (extra : List Occurrence) : Call := ⟨call.functor, call.args ++ extra⟩

/-- The call a term denotes when no variable is left at its root. -/
def ofOccurrence (o : Occurrence) : Except SearchError Call :=
  match o.term with
  | .atom name => .ok ⟨name, []⟩
  | .compound functor _ _ => .ok ⟨functor, o.args⟩
  | .var _ => .error .instantiation
  | .number value => .error (.notCallable (.number value))

end Call

/-- What a goal asks for. -/
inductive Goal
  /-- Succeeds once. -/
  | truth
  /-- Never succeeds. -/
  | failure
  /-- Succeeds once and drops the alternatives of the clause it stands in. -/
  | cut
  /-- The right goal after each answer of the left. -/
  | both (left right : Occurrence)
  /-- The answers of the left goal, then those of the right. -/
  | either (left right : Occurrence)
  /-- The consequent after the first answer of the condition, or else the alternative;
  without an alternative nothing. -/
  | ifThen (condition consequent : Occurrence) (alternative : Option Occurrence)
  /-- Succeeds once if the goal has no answer. -/
  | negation (goal : Occurrence)
  /-- The target, with further arguments, as a goal that cuts only its own alternatives. -/
  | call (target : Occurrence) (extra : List Occurrence)
  /-- Makes two terms equal. -/
  | unify (left right : Occurrence)
  /-- Succeeds once if two terms cannot be made equal. -/
  | differ (left right : Occurrence)
  /-- A call of a predicate. -/
  | predicate (call : Call)

namespace Goal

/-- The names that are control constructs only in their own arity. -/
def reserved : List String := [",", ";", "->", "\\+", "!", "call"]

/-- The condition and the consequent of an if-then. -/
def ifThen? (o : Occurrence) : Option (Occurrence × Occurrence) :=
  match Call.ofOccurrence o with
  | .ok ⟨"->", [condition, consequent]⟩ => some (condition, consequent)
  | _ => none

/-- The goal a call asks for. -/
def ofCall (call : Call) : Except SearchError Goal :=
  match call.functor, call.args with
  | "true", [] => .ok .truth
  | "fail", [] => .ok .failure
  | "false", [] => .ok .failure
  | "!", [] => .ok .cut
  | ",", [left, right] => .ok (.both left right)
  | ";", [left, right] =>
    match ifThen? left with
    | some (condition, consequent) => .ok (.ifThen condition consequent (some right))
    | none => .ok (.either left right)
  | "->", [condition, consequent] => .ok (.ifThen condition consequent none)
  | "\\+", [goal] => .ok (.negation goal)
  | "not", [goal] => .ok (.negation goal)
  | "call", target :: extra => .ok (.call target extra)
  | "=", [left, right] => .ok (.unify left right)
  | "\\=", [left, right] => .ok (.differ left right)
  | functor, _ =>
    if reserved.contains functor then .error (.malformedControl call.indicator)
    else .ok (.predicate call)

end Goal

end ClauseResolution
