/-!
# JSON values

A value keeps numbers in their spelling, so that each reader of a number decides its
own range. The escapes of a string may leave half of a surrogate pair; such a string
has no text, and neither has a key.
-/

namespace ClauseResolution

/-- The spelling of a JSON number. -/
structure Numeral where
  /-- The spelling starts with a minus sign. -/
  negative : Bool
  /-- The digits before the point. -/
  whole : List Char
  /-- The digits after the point; there is no point without one. -/
  fraction : List Char
  /-- The exponent: whether it is negative, and its digits. -/
  exponent : Option (Bool × List Char)
  deriving DecidableEq

/-- A JSON value. -/
inductive Json
  /-- The literal `null`. -/
  | null
  /-- The literals `true` and `false`. -/
  | bool (value : Bool)
  /-- A number. -/
  | number (value : Numeral)
  /-- A string, with its text unless half of a surrogate pair is left over. -/
  | string (text : Option String)
  /-- An array. -/
  | array (items : List Json)
  /-- An object, with its members in order and repeated keys kept. -/
  | object (members : List (Option String × Json))
  deriving Inhabited

namespace Json

/-- A string value. -/
def ofString (text : String) : Json := .string (some text)

/-- An object with keys that are plain texts. -/
def ofMembers (members : List (String × Json)) : Json :=
  .object (members.map fun (key, value) => (some key, value))

/-- The text of a string. -/
def text? : Json → Option String
  | .string text => text
  | _ => none

/-- A truth value. -/
def bool? : Json → Option Bool
  | .bool value => some value
  | _ => none

/-- The spelling of a number. -/
def numeral? : Json → Option Numeral
  | .number value => some value
  | _ => none

/-- `null` stands for no value, anything else for a value to be read. -/
def optional? {α : Type} (read : Json → Option α) : Json → Option (Option α)
  | .null => some none
  | value => (read value).map some

/-- An object of one member: the name of a variant and its content. -/
def variant? : Json → Option (String × Json)
  | .object [(some name, content)] => some (name, content)
  | _ => none

/-- The value of a field that must not be repeated. -/
def field? (name : String) (members : List (Option String × Json)) : Option (Option Json) :=
  match members.filter (fun member => member.1 == some name) with
  | [] => some none
  | [(_, value)] => some (some value)
  | _ => none

/-- The fields of a record, `none` for each one that is missing. An object may hold
other fields, which are passed over, but no field twice and no key without a text.
An array gives the fields in their order and no more; it may stop before the last
one only if `short` allows it. -/
def record? (short : Bool) (names : List String) : Json → Option (List (Option Json))
  | .object members =>
    if members.all (fun member => member.1.isSome) then names.mapM (field? · members) else none
  | .array items =>
    if items.length = names.length ∨ (short ∧ items.length < names.length) then
      some (items.map some ++ List.replicate (names.length - items.length) none)
    else none
  | _ => none

end Json

end ClauseResolution
