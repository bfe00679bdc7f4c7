import ClauseResolution.Json.Token

/-!
# Reading JSON text

Values are built from the tokens of a text in one pass. The arrays and objects that
are still open are kept in a list, and at each point it is known what may come next;
a token that may not come next refuses the text.
-/

namespace ClauseResolution.Json

/-- An array or object that is still open around the value being read. -/
inductive Enclosing
  /-- An array, with the items before, last first. -/
  | array (before : List Json)
  /-- An object that waits for the value of a key, with the members before, last first. -/
  | member (before : List (Option String × Json)) (key : Option String)

/-- What may come next. -/
inductive Expected
  /-- A value. -/
  | value
  /-- A first item or the end of an array. -/
  | firstItem
  /-- A first key or the end of an object. -/
  | firstKey
  /-- A further key of an object. -/
  | key (before : List (Option String × Json))
  /-- The colon behind a key. -/
  | colon (before : List (Option String × Json)) (key : Option String)
  /-- What follows a value: a comma, an end, or the end of the text. -/
  | after (value : Json)

/-- The value of a token that is a value by itself. -/
def Token.value? : Token → Option Json
  | .string text => some (.string text)
  | .scalar value => some value
  | _ => none

/-- The start of a value. -/
def start? (stack : List Enclosing) (token : Token) : Option (Expected × List Enclosing) :=
  match token with
  | .openArray => some (.firstItem, .array [] :: stack)
  | .openObject => some (.firstKey, stack)
  | token => token.value?.map fun value => (.after value, stack)

/-- What is expected behind a token, and inside which arrays and objects. -/
def advance? : Expected → List Enclosing → Token → Option (Expected × List Enclosing)
  | .value, stack, token => start? stack token
  | .firstItem, .array [] :: stack, .closeArray => some (.after (.array []), stack)
  | .firstItem, stack, token => start? stack token
  | .firstKey, stack, .closeObject => some (.after (.object []), stack)
  | .firstKey, stack, .string key => some (.colon [] key, stack)
  | .key before, stack, .string key => some (.colon before key, stack)
  | .colon before key, stack, .colon => some (.value, .member before key :: stack)
  | .after value, .array before :: stack, .comma => some (.value, .array (value :: before) :: stack)
  | .after value, .array before :: stack, .closeArray =>
    some (.after (.array (value :: before).reverse), stack)
  | .after value, .member before key :: stack, .comma => some (.key ((key, value) :: before), stack)
  | .after value, .member before key :: stack, .closeObject =>
    some (.after (.object ((key, value) :: before).reverse), stack)
  | _, _, _ => none

/-- Reads the remaining tokens. -/
def ofTokens? : Expected → List Enclosing → List Token → Option Json
  | .after value, [], [] => some value
  | _, _, [] => none
  | expected, stack, token :: tokens =>
    match advance? expected stack token with
    | some (expected, stack) => ofTokens? expected stack tokens
    | none => none

/-- The value a text denotes; nothing but blanks may surround it. -/
def read? (text : String) : Option Json :=
  (Token.scan [] text.toList).bind (ofTokens? .value [])

end ClauseResolution.Json
