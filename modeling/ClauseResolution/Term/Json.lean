import ClauseResolution.Term.Basic
import ClauseResolution.Json.Numeral
import ClauseResolution.Json.Reader
import ClauseResolution.Json.Writer

/-!
# Terms as JSON

Each kind of term is an object of one member, named for the kind. A variable and a
compound term are records, which may be read from a list of their fields as well.
Numbers that are not finite are written as `null` and are not read back.
-/

namespace ClauseResolution

/-- A number below `2 ^ 64`. -/
def Json.nat? (value : Json) : Option Nat := value.numeral?.bind Numeral.nat?

/-- A natural number as a JSON value. -/
def Json.ofNat (n : Nat) : Json := .number (.ofNat n)

/-- A numeric constant as a JSON value. -/
def Number.toJson : Number → Json
  | .int value => .ofMembers [("Int", .number (.ofInt value.toInt))]
  | .float value =>
    .ofMembers [("Float", if value.isFinite then .number (.ofBinary64 value) else .null)]

/-- The numeric constant a JSON value denotes. -/
def Number.ofJson? (value : Json) : Option Number := do
  let (kind, content) ← value.variant?
  let numeral ← content.numeral?
  if kind = "Int" then numeral.int64?.map .int
  else if kind = "Float" then numeral.float?.map .float
  else none

/-- A variable as a JSON value. -/
def Var.toJson (v : Var) : Json :=
  .ofMembers [("name", .ofString v.name), ("index", v.index.elim .null .ofNat)]

/-- The variable a JSON value denotes. In an object the index may be missing. -/
def Var.ofJson? (value : Json) : Option Var := do
  match ← value.record? false ["name", "index"] with
  | [some name, index] => return ⟨← name.text?, ← (index.getD .null).optional? Json.nat?⟩
  | _ => none

namespace Term

mutual

/-- A term as a JSON value. -/
def toJson : Term → Json
  | .atom name => .ofMembers [("Atom", .ofString name)]
  | .number value => .ofMembers [("Number", value.toJson)]
  | .var v => .ofMembers [("Var", v.toJson)]
  | .compound functor args varCount =>
    .ofMembers [("Struct", .ofMembers [("functor", .ofString functor),
      ("args", .array (toJsons args)), ("var_count", .ofNat varCount)])]

/-- The arguments as JSON values. -/
def toJsons : List Term → List Json
  | [] => []
  | t :: ts => toJson t :: toJsons ts

end

mutual

/-- The term a JSON value denotes. -/
def ofJson? : Json → Option Term
  | .object [(some kind, content)] =>
    if kind = "Atom" then content.text?.map .atom
    else if kind = "Number" then (Number.ofJson? content).map .number
    else if kind = "Var" then (Var.ofJson? content).map .var
    else if kind = "Struct" then compoundOfJson? content
    else none
  | _ => none

/-- The compound term a record denotes. -/
def compoundOfJson? : Json → Option Term
  | .array [functor, args, varCount] => do
    return .compound (← functor.text?) (← argsOfJson? args) (← varCount.nat?)
  | .object members => do
    match ← (Json.object members).record? false ["functor", "args", "var_count"] with
    | [some functor, some _, some varCount] =>
      return .compound (← functor.text?) (← argsOfMembers? members) (← varCount.nat?)
    | _ => none
  | _ => none

/-- The arguments in the field that holds them. -/
def argsOfMembers? : List (Option String × Json) → Option (List Term)
  | [] => none
  | (key, value) :: members =>
    if key = some "args" then argsOfJson? value else argsOfMembers? members

/-- The arguments an array denotes. -/
def argsOfJson? : Json → Option (List Term)
  | .array items => ofJsons? items
  | _ => none

/-- The terms that JSON values denote, if each denotes one. -/
def ofJsons? : List Json → Option (List Term)
  | [] => some []
  | item :: items => do return (← ofJson? item) :: (← ofJsons? items)

end

/-- The compact JSON text of a term. -/
def jsonText (t : Term) : String := t.toJson.text

/-- The term a JSON text denotes. -/
def ofJsonText? (text : String) : Option Term := (Json.read? text).bind ofJson?

end Term

end ClauseResolution
