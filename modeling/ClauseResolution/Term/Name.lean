/-!
# Names of atoms and functors

Any text is a name. Names that read as one symbol are written bare: small letters
followed by letters, digits and underscores, or operator characters throughout, and
four names of punctuation. Every other name is written between quotes, where a quote
and a backslash are escaped. Letters and digits are those of ASCII.
-/

namespace ClauseResolution.Name

/-- The characters of operator names. -/
def operatorCharacters : List Char := "+-*/\\^<>=~:.?@#&$".toList

/-- Punctuation that is written bare. -/
def punctuation : List String := ["[]", "!", ";", "\x7b\x7d"]

/-- A character that may follow the first letter of a bare name. -/
def continues (c : Char) : Bool := c.isAlphanum || c == '_'

/-- The name is written without quotes. -/
def isBare (name : String) : Bool :=
  punctuation.contains name ||
    match name.toList with
    | [] => false
    | first :: rest =>
      if first.isLower then rest.all continues
      else (first :: rest).all operatorCharacters.contains

/-- A character between quotes. -/
def quoteCharacter (c : Char) : List Char :=
  if c = '\'' ∨ c = '\\' then ['\\', c] else [c]

/-- A name between quotes. -/
def quoted (name : String) : String :=
  String.ofList ('\'' :: name.toList.flatMap quoteCharacter ++ ['\''])

/-- The written form of a name. -/
def text (name : String) : String := if isBare name then name else quoted name

/-- A character between double quotes: the usual escapes, and other control characters
by their number in hexadecimal. -/
def inspectCharacter (c : Char) : List Char :=
  match c with
  | '"' => ['\\', '"']
  | '\\' => ['\\', '\\']
  | '\n' => ['\\', 'n']
  | '\r' => ['\\', 'r']
  | '\t' => ['\\', 't']
  | '\x00' => ['\\', '0']
  | c =>
    if c.toNat < 32 ∨ c.toNat = 127 then
      ['\\', 'u', '\x7b'] ++ Nat.toDigits 16 c.toNat ++ ['\x7d']
    else [c]

/-- An atom in the form that shows every character of its name. -/
def inspect (name : String) : String :=
  "Atom(" ++ String.ofList ('"' :: name.toList.flatMap inspectCharacter ++ ['"']) ++ ")"

end ClauseResolution.Name
