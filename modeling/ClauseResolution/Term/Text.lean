import ClauseResolution.Term.Basic
import ClauseResolution.Term.Name

/-!
# The text of terms

Compound terms are written as a functor with its arguments in parentheses, list cells
in brackets with the elements of the whole list, and a bar before a tail that is not
the empty list. Variables are written by name alone.
-/

namespace ClauseResolution.Term

mutual

/-- Appends the text of a term. -/
def write (out : String) : Term → String
  | .atom name => out ++ Name.text name
  | .number value => out ++ value.text
  | .var v => out ++ v.name
  | .compound functor args _ =>
    match args with
    | [] => out ++ Name.text functor ++ "()"
    | first :: rest =>
      match rest with
      | [tail] =>
        if functor = cellFunctor then (writeTail (write (out.push '[') first) tail).push ']'
        else (write ((write (out ++ Name.text functor ++ "(") first).push ',') tail).push ')'
      | rest => (writeRest (write (out ++ Name.text functor ++ "(") first) rest).push ')'

/-- Appends the arguments after the first, each behind a comma. -/
def writeRest (out : String) : List Term → String
  | [] => out
  | t :: ts => writeRest (write (out.push ',') t) ts

/-- Appends what follows an element of a list, up to the closing bracket. -/
def writeTail (out : String) : Term → String
  | .atom name => if name = nilName then out else out ++ "|" ++ Name.text name
  | .number value => out ++ "|" ++ value.text
  | .var v => out ++ "|" ++ v.name
  | .compound functor args _ =>
    match args with
    | [] => out ++ "|" ++ Name.text functor ++ "()"
    | first :: rest =>
      match rest with
      | [tail] =>
        if functor = cellFunctor then writeTail (write (out.push ',') first) tail
        else (write ((write (out ++ "|" ++ Name.text functor ++ "(") first).push ',') tail).push ')'
      | rest => (writeRest (write (out ++ "|" ++ Name.text functor ++ "(") first) rest).push ')'

end

/-- The text of a term. -/
def text (t : Term) : String := write "" t

end ClauseResolution.Term
