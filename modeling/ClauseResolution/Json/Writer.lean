import ClauseResolution.Json.Basic

/-!
# Compact JSON text

Values are written without any blank. In strings the quote, the backslash and the
characters below U+0020 are escaped, the latter by their short escapes where there
are any. Exponents carry their sign.
-/

namespace ClauseResolution

/-- The spelling as text. -/
def Numeral.text (n : Numeral) : String :=
  let sign := if n.negative then ['-'] else []
  let fraction := if n.fraction.isEmpty then [] else '.' :: n.fraction
  let exponent := match n.exponent with
    | none => []
    | some (negative, digits) => 'e' :: (if negative then '-' else '+') :: digits
  String.ofList (sign ++ n.whole ++ fraction ++ exponent)

namespace Json

/-- A character inside a string. -/
def escape (c : Char) : List Char :=
  match c with
  | '"' => ['\\', '"']
  | '\\' => ['\\', '\\']
  | '\x08' => ['\\', 'b']
  | '\t' => ['\\', 't']
  | '\n' => ['\\', 'n']
  | '\x0c' => ['\\', 'f']
  | '\r' => ['\\', 'r']
  | c =>
    if c.toNat < 32 then
      ['\\', 'u', '0', '0', Nat.digitChar (c.toNat / 16), Nat.digitChar (c.toNat % 16)]
    else [c]

/-- A text between quotes. -/
def quoted (text : String) : String :=
  String.ofList ('"' :: text.toList.flatMap escape ++ ['"'])

mutual

/-- Appends the compact text of a value. A string without text is written empty. -/
def write (out : String) : Json → String
  | .null => out ++ "null"
  | .bool true => out ++ "true"
  | .bool false => out ++ "false"
  | .number value => out ++ value.text
  | .string text => out ++ quoted (text.getD "")
  | .array [] => out ++ "[]"
  | .array (item :: items) => (writeItems (write (out.push '[') item) items).push ']'
  | .object [] => (out.push '\x7b').push '\x7d'
  | .object ((key, value) :: members) =>
    (writeMembers (write ((out.push '\x7b') ++ quoted (key.getD "") ++ ":") value)
      members).push '\x7d'

/-- Appends the items after the first, each behind a comma. -/
def writeItems (out : String) : List Json → String
  | [] => out
  | item :: items => writeItems (write (out.push ',') item) items

/-- Appends the members after the first, each behind a comma. -/
def writeMembers (out : String) : List (Option String × Json) → String
  | [] => out
  | (key, value) :: members =>
    writeMembers (write ((out.push ',') ++ quoted (key.getD "") ++ ":") value) members

end

/-- The compact text of a value. -/
def text (value : Json) : String := write "" value

end Json

end ClauseResolution
