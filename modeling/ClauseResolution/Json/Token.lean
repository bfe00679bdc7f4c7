import ClauseResolution.Json.Basic

/-!
# JSON tokens

A text is cut into tokens by the strict grammar: no leading zeros, no bare point or
exponent, no raw control character in a string. Two adjacent scalars are left to
the reader of values, which accepts no such sequence.
-/

namespace ClauseResolution.Json

/-- A token. -/
inductive Token
  /-- An opening brace. -/
  | openObject
  /-- A closing brace. -/
  | closeObject
  /-- An opening bracket. -/
  | openArray
  /-- A closing bracket. -/
  | closeArray
  /-- A colon. -/
  | colon
  /-- A comma. -/
  | comma
  /-- A string, with its text unless half of a surrogate pair is left over. -/
  | string (text : Option String)
  /-- A number or a literal name. -/
  | scalar (value : Json)

/-- A part of a string: a character, or the sixteen bits of a numeric escape. -/
inductive StringPart
  /-- A character of its own. -/
  | char (c : Char)
  /-- A unit of UTF-16. -/
  | unit (code : Nat)

/-- The text of a string, unless half of a surrogate pair is left over. -/
def StringPart.text : List StringPart → Option (List Char)
  | [] => some []
  | .char c :: rest => (text rest).map (c :: ·)
  | .unit high :: rest =>
    if 0xD800 ≤ high ∧ high < 0xDC00 then
      match rest with
      | .unit low :: rest =>
        if 0xDC00 ≤ low ∧ low < 0xE000 then
          (text rest).map (Char.ofNat (0x10000 + (high - 0xD800) * 0x400 + (low - 0xDC00)) :: ·)
        else none
      | _ => none
    else if 0xDC00 ≤ high ∧ high < 0xE000 then none
    else (text rest).map (Char.ofNat high :: ·)

/-- The value of a hexadecimal digit. -/
def hexValue? (c : Char) : Option Nat :=
  if c.isDigit then some (c.toNat - '0'.toNat)
  else if 'a' ≤ c ∧ c ≤ 'f' then some (c.toNat - 'a'.toNat + 10)
  else if 'A' ≤ c ∧ c ≤ 'F' then some (c.toNat - 'A'.toNat + 10)
  else none

/-- The value of four hexadecimal digits. -/
def hexValue4? (a b c d : Char) : Option Nat := do
  let a ← hexValue? a
  let b ← hexValue? b
  let c ← hexValue? c
  let d ← hexValue? d
  return ((a * 16 + b) * 16 + c) * 16 + d

/-- The character of a short escape. -/
def escaped? (c : Char) : Option Char :=
  match c with
  | '"' | '\\' | '/' => some c
  | 'b' => some '\x08'
  | 'f' => some '\x0c'
  | 'n' => some '\n'
  | 'r' => some '\r'
  | 't' => some '\t'
  | _ => none

/-- The parts of a string after its opening quote, behind those already `seen`, last
first, and the text behind the closing quote. -/
def stringParts (seen : List StringPart) : List Char → Option (List StringPart × List Char)
  | [] => none
  | '"' :: rest => some (seen.reverse, rest)
  | '\\' :: 'u' :: a :: b :: c :: d :: rest =>
    match hexValue4? a b c d with
    | some code => stringParts (.unit code :: seen) rest
    | none => none
  | '\\' :: c :: rest =>
    match escaped? c with
    | some c => stringParts (.char c :: seen) rest
    | none => none
  | c :: rest => if c.toNat < 32 then none else stringParts (.char c :: seen) rest

/-- The digits at the front of a text, and what follows them. -/
def digits (cs : List Char) : List Char × List Char :=
  (cs.takeWhile Char.isDigit, cs.dropWhile Char.isDigit)

/-- The digits before the point: a single zero, or digits that do not start with one. -/
def wholePart : List Char → Option (List Char × List Char)
  | '0' :: rest => some (['0'], rest)
  | cs => match digits cs with
    | ([], _) => none
    | parts => some parts

/-- The digits after a point, none without a point. -/
def fractionPart : List Char → Option (List Char × List Char)
  | '.' :: rest => match digits rest with
    | ([], _) => none
    | parts => some parts
  | cs => some ([], cs)

/-- The sign of an exponent. -/
def exponentSign : List Char → Bool × List Char
  | '-' :: rest => (true, rest)
  | '+' :: rest => (false, rest)
  | cs => (false, cs)

/-- An exponent, if there is one. -/
def exponentPart : List Char → Option (Option (Bool × List Char) × List Char)
  | c :: rest =>
    if c = 'e' ∨ c = 'E' then
      let (negative, cs) := exponentSign rest
      match digits cs with
      | ([], _) => none
      | (ds, rest) => some (some (negative, ds), rest)
    else some (none, c :: rest)
  | [] => some (none, [])

/-- A number without its sign. -/
def magnitude (negative : Bool) (cs : List Char) : Option (Numeral × List Char) := do
  let (whole, cs) ← wholePart cs
  let (fraction, cs) ← fractionPart cs
  let (exponent, cs) ← exponentPart cs
  return (⟨negative, whole, fraction, exponent⟩, cs)

/-- The token at the front of a text that does not start with a blank, and what
follows it. -/
def Token.next? : List Char → Option (Token × List Char)
  | '\x7b' :: rest => some (.openObject, rest)
  | '\x7d' :: rest => some (.closeObject, rest)
  | '[' :: rest => some (.openArray, rest)
  | ']' :: rest => some (.closeArray, rest)
  | ':' :: rest => some (.colon, rest)
  | ',' :: rest => some (.comma, rest)
  | '"' :: rest => (stringParts [] rest).map fun (parts, rest) =>
    (.string ((StringPart.text parts).map String.ofList), rest)
  | 'n' :: 'u' :: 'l' :: 'l' :: rest => some (.scalar .null, rest)
  | 't' :: 'r' :: 'u' :: 'e' :: rest => some (.scalar (.bool true), rest)
  | 'f' :: 'a' :: 'l' :: 's' :: 'e' :: rest => some (.scalar (.bool false), rest)
  | '-' :: rest => (magnitude true rest).map fun (n, rest) => (.scalar (.number n), rest)
  | cs => (magnitude false cs).map fun (n, rest) => (.scalar (.number n), rest)

/-- The characters that may stand between tokens. -/
def isBlank (c : Char) : Bool := c == ' ' || c == '\t' || c == '\n' || c == '\r'

/-- The parts of a string use up characters. -/
theorem length_of_stringParts {seen parts : List StringPart} {cs rest : List Char}
    (h : stringParts seen cs = some (parts, rest)) : rest.length < cs.length := by
  fun_induction stringParts seen cs with
  | case1 => simp at h
  | case2 seen rest' =>
    simp only [Option.some.injEq, Prod.mk.injEq] at h
    simp [← h.2]
  | case3 seen a b c d rest' code hcode ih => have := ih h; simp; omega
  | case4 => simp at h
  | case5 seen c rest' _ c' hc ih => have := ih h; simp; omega
  | case6 => simp at h
  | case7 => simp at h
  | case8 seen c rest' _ _ _ _ ih => have := ih h; simp; omega

/-- Dropping characters from the front leaves no more than there were. -/
theorem length_dropWhile_le (p : Char → Bool) (cs : List Char) :
    (cs.dropWhile p).length ≤ cs.length := by
  induction cs with
  | nil => simp
  | cons c cs ih =>
    by_cases hc : p c = true
    · simp only [List.dropWhile_cons_of_pos hc, List.length_cons]; omega
    · simp [List.dropWhile_cons_of_neg hc]

/-- Reading digits leaves no more characters than there were. -/
theorem length_of_digits {cs ds rest : List Char} (h : digits cs = (ds, rest)) :
    rest.length ≤ cs.length := by
  simp only [digits, Prod.mk.injEq] at h
  rw [← h.2]
  exact length_dropWhile_le _ _

/-- Reading at least one digit uses up characters. -/
theorem length_of_digits_ne_nil {cs ds rest : List Char} (h : digits cs = (ds, rest))
    (hds : ds ≠ []) : rest.length < cs.length := by
  simp only [digits, Prod.mk.injEq] at h
  have hsplit := congrArg List.length
    (List.takeWhile_append_dropWhile (p := Char.isDigit) (l := cs))
  rw [List.length_append, h.1, h.2] at hsplit
  have := List.length_pos_iff.2 hds
  omega

/-- The digits before the point use up characters. -/
theorem length_of_wholePart {cs ds rest : List Char} (h : wholePart cs = some (ds, rest)) :
    rest.length < cs.length := by
  unfold wholePart at h
  split at h
  · simp only [Option.some.injEq, Prod.mk.injEq] at h
    simp [← h.2]
  · split at h
    · simp at h
    · rename_i parts hne
      rw [Option.some.injEq] at h
      refine length_of_digits_ne_nil h fun hnil => hne rest ?_
      rw [h, hnil]

/-- The digits after the point leave no more characters than there were. -/
theorem length_of_fractionPart {cs ds rest : List Char} (h : fractionPart cs = some (ds, rest)) :
    rest.length ≤ cs.length := by
  unfold fractionPart at h
  split at h
  · split at h
    · simp at h
    · rw [Option.some.injEq] at h
      have := length_of_digits h
      simp only [List.length_cons]; omega
  · simp only [Option.some.injEq, Prod.mk.injEq] at h
    simp [h.2]

/-- The sign of an exponent leaves no more characters than there were. -/
theorem length_exponentSign_le (cs : List Char) : (exponentSign cs).2.length ≤ cs.length := by
  unfold exponentSign
  split <;> simp

/-- An exponent leaves no more characters than there were. -/
theorem length_of_exponentPart {cs rest : List Char} {e : Option (Bool × List Char)}
    (h : exponentPart cs = some (e, rest)) : rest.length ≤ cs.length := by
  unfold exponentPart at h
  split at h
  · rename_i c tail
    split at h
    · have hsign := length_exponentSign_le tail
      dsimp only at h
      split at h
      · simp at h
      · rename_i ds rest' _ hds
        simp only [Option.some.injEq, Prod.mk.injEq] at h
        have := length_of_digits hds
        rw [h.2] at this
        simp only [List.length_cons]; omega
    · simp only [Option.some.injEq, Prod.mk.injEq] at h
      simp [← h.2]
  · simp only [Option.some.injEq, Prod.mk.injEq] at h
    simp [← h.2]

/-- A number uses up characters. -/
theorem length_of_magnitude {negative : Bool} {cs rest : List Char} {n : Numeral}
    (h : magnitude negative cs = some (n, rest)) : rest.length < cs.length := by
  simp only [magnitude, Option.bind_eq_bind, Option.bind_eq_some_iff] at h
  obtain ⟨⟨whole, cs1⟩, h1, ⟨fraction, cs2⟩, h2, ⟨exponent, cs3⟩, h3, h4⟩ := h
  have := length_of_wholePart h1
  have := length_of_fractionPart h2
  have := length_of_exponentPart h3
  simp only [Option.pure_def, Option.some.injEq, Prod.mk.injEq] at h4
  dsimp only at *
  rw [← h4.2]
  omega

/-- A token uses up characters, so reading tokens comes to an end. -/
theorem Token.length_of_next? {cs rest : List Char} {t : Token}
    (h : Token.next? cs = some (t, rest)) : rest.length < cs.length := by
  unfold Token.next? at h
  split at h <;>
    grind [Option.map_eq_some_iff, → length_of_stringParts, → length_of_magnitude]

/-- The tokens of a text, behind those already `seen`, last first. -/
def Token.scan (seen : List Token) (cs : List Char) : Option (List Token) :=
  match _hcs : cs with
  | [] => some seen.reverse
  | c :: rest =>
    if isBlank c then Token.scan seen rest
    else match _h : Token.next? cs with
      | none => none
      | some (token, rest) => Token.scan (token :: seen) rest
termination_by cs.length
decreasing_by
  · subst _hcs; simp
  · subst _hcs; exact Token.length_of_next? (by assumption)

end ClauseResolution.Json
