import ClauseResolution.Json.Reader
import ClauseResolution.Json.Writer
import Mathlib.Data.List.Basic

/-!
# Compact JSON text is read back

The text of a value is the text of its tokens, one after the other. Each of them is cut
off again where it ends: a punctuation mark or a string by its own last character, and a
number by the comma or bracket behind it. The reader builds the value from the tokens, as
it keeps what is open on a list.
-/

namespace ClauseResolution

/-- The digits of the spelling are digits, none is missing, and the first one is no zero
unless it is the only one before the point. -/
structure Numeral.WellSpelled (n : Numeral) : Prop where
  /-- Digits stand before the point. -/
  whole : ∀ c ∈ n.whole, c.isDigit
  /-- There is at least one of them. -/
  whole_ne_nil : n.whole ≠ []
  /-- They do not start with a zero that could be left out. -/
  head : n.whole.head? = some '0' → n.whole = ['0']
  /-- Digits stand behind the point. -/
  fraction : ∀ c ∈ n.fraction, c.isDigit
  /-- Digits form the exponent, if there is one. -/
  exponent : ∀ e ∈ n.exponent, e.2 ≠ [] ∧ ∀ c ∈ e.2, c.isDigit

namespace Json

/-- The numbers in a value are well spelled, and all strings and keys have a text. -/
inductive WellSpelled : Json → Prop
  /-- The literal `null`. -/
  | null : WellSpelled .null
  /-- The literals `true` and `false`. -/
  | bool (value : Bool) : WellSpelled (.bool value)
  /-- A number. -/
  | number {n : Numeral} (h : n.WellSpelled) : WellSpelled (.number n)
  /-- A string. -/
  | string (text : String) : WellSpelled (.string (some text))
  /-- An array. -/
  | array {items : List Json} (hitems : ∀ item ∈ items, WellSpelled item) :
      WellSpelled (.array items)
  /-- An object. -/
  | object {members : List (Option String × Json)} (hkeys : ∀ m ∈ members, m.1.isSome)
      (hvalues : ∀ m ∈ members, WellSpelled m.2) : WellSpelled (.object members)

/-- The characters of a token. -/
def Token.spelling : Token → List Char
  | .openObject => ['\x7b']
  | .closeObject => ['\x7d']
  | .openArray => ['[']
  | .closeArray => [']']
  | .colon => [':']
  | .comma => [',']
  | .string text => (quoted (text.getD "")).toList
  | .scalar .null => "null".toList
  | .scalar (.bool true) => "true".toList
  | .scalar (.bool false) => "false".toList
  | .scalar (.number n) => n.text.toList
  | .scalar _ => []

mutual

/-- The tokens of a value. -/
def tokens : Json → List Token
  | .string text => [.string text]
  | .array [] => [.openArray, .closeArray]
  | .array (item :: items) => .openArray :: (tokens item ++ itemTokens items)
  | .object [] => [.openObject, .closeObject]
  | .object ((key, value) :: members) =>
    .openObject :: .string key :: .colon :: (tokens value ++ memberTokens members)
  | value => [.scalar value]

/-- The tokens of the items after the first, each behind a comma, up to the end of the
array. -/
def itemTokens : List Json → List Token
  | [] => [.closeArray]
  | item :: items => .comma :: (tokens item ++ itemTokens items)

/-- The tokens of the members after the first, each behind a comma, up to the end of the
object. -/
def memberTokens : List (Option String × Json) → List Token
  | [] => [.closeObject]
  | (key, value) :: members =>
    .comma :: .string key :: .colon :: (tokens value ++ memberTokens members)

end

/-- The characters of tokens that follow each other. -/
def spell (tokens : List Token) : List Char := tokens.flatMap Token.spelling

section Writing

/-- No tokens are written as the empty text. -/
@[simp] theorem spell_nil : spell [] = [] := rfl

/-- The first token is written in front of the others. -/
@[simp] theorem spell_cons (token : Token) (rest : List Token) :
    spell (token :: rest) = token.spelling ++ spell rest := List.flatMap_cons

/-- Tokens are written one after the other. -/
@[simp] theorem spell_append (first rest : List Token) :
    spell (first ++ rest) = spell first ++ spell rest := List.flatMap_append

mutual

/-- A value is written as its tokens. -/
theorem toList_write (out : String) (value : Json) :
    (write out value).toList = out.toList ++ spell value.tokens := by
  match value with
  | .null | .bool true | .bool false | .number n | .string text =>
    simp [write, tokens, Token.spelling]
  | .array [] => simp [write, tokens, Token.spelling]
  | .array (item :: items) =>
    rw [write, String.toList_push, toList_writeItems, toList_write, tokens]
    simp [Token.spelling]
  | .object [] => simp [write, tokens, Token.spelling]
  | .object ((key, value) :: members) =>
    rw [write, String.toList_push, toList_writeMembers, toList_write, tokens]
    simp [Token.spelling]

/-- Further items are written as their tokens. -/
theorem toList_writeItems (out : String) (items : List Json) :
    (writeItems out items).toList ++ [']'] = out.toList ++ spell (itemTokens items) := by
  match items with
  | [] => simp [writeItems, itemTokens, Token.spelling]
  | item :: items =>
    rw [writeItems, toList_writeItems, toList_write, itemTokens]
    simp [Token.spelling]

/-- Further members are written as their tokens. -/
theorem toList_writeMembers (out : String) (members : List (Option String × Json)) :
    (writeMembers out members).toList ++ ['\x7d'] = out.toList ++ spell (memberTokens members) := by
  match members with
  | [] => simp [writeMembers, memberTokens, Token.spelling]
  | (key, value) :: members =>
    rw [writeMembers, toList_writeMembers, toList_write, memberTokens]
    simp [Token.spelling]

end

end Writing

section Scanning

/-- Four hexadecimal digits of a control character denote it. -/
theorem hexValue4?_of_control : ∀ n < 32,
    hexValue4? '0' '0' (Nat.digitChar (n / 16)) (Nat.digitChar (n % 16)) = some n := by
  decide

/-- A character that is neither a quote nor an escape nor a control character stands for itself. -/
theorem stringParts_cons {c : Char} (hquote : c ≠ '"') (hescape : c ≠ '\\')
    (hcontrol : ¬ c.toNat < 32) (seen : List StringPart) (rest : List Char) :
    stringParts seen (c :: rest) = stringParts (.char c :: seen) rest := by
  rw [stringParts, if_neg hcontrol]
  · exact hquote
  · exact fun _ _ _ _ _ h => absurd h hescape
  · exact fun _ _ h => absurd h hescape

/-- A character is read back from the way it is written inside a string. -/
theorem exists_part (c : Char) : ∃ part, (∀ seen rest,
    stringParts seen (escape c ++ rest) = stringParts (part :: seen) rest) ∧
      ∀ parts, StringPart.text (part :: parts) = (StringPart.text parts).map (c :: ·) := by
  unfold escape
  split
  iterate 7 exact ⟨.char _, fun seen rest => by simp [stringParts, escaped?], fun parts => rfl⟩
  next hquote hescape _ _ _ _ _ =>
    split
    · next hcontrol =>
      refine ⟨.unit c.toNat, fun seen rest => ?_, fun parts => ?_⟩
      · simp only [List.cons_append, List.nil_append]
        rw [stringParts, hexValue4?_of_control _ hcontrol]
      · rw [StringPart.text.eq_def]
        simp only [if_neg (show ¬ (0xD800 ≤ c.toNat ∧ c.toNat < 0xDC00) by omega),
          if_neg (show ¬ (0xDC00 ≤ c.toNat ∧ c.toNat < 0xE000) by omega), Char.ofNat_toNat]
    · next hcontrol =>
      exact ⟨.char c, stringParts_cons hquote hescape hcontrol, fun parts => rfl⟩

/-- A text is read back from the way it is written between quotes. -/
theorem exists_parts (cs : List Char) : ∃ parts, StringPart.text parts = some cs ∧
    ∀ seen rest, stringParts seen (cs.flatMap escape ++ '"' :: rest) =
      some (seen.reverse ++ parts, rest) := by
  induction cs with
  | nil => exact ⟨[], rfl, fun seen rest => by simp [stringParts]⟩
  | cons c cs ih =>
    obtain ⟨parts, htext, hparts⟩ := ih
    obtain ⟨part, hstep, hpart⟩ := exists_part c
    refine ⟨part :: parts, by rw [hpart, htext, Option.map_some], fun seen rest => ?_⟩
    rw [List.flatMap_cons, List.append_assoc, hstep, hparts]
    simp

/-- The token of a string is cut off behind its closing quote. -/
theorem next?_string (text : String) (rest : List Char) :
    Token.next? ((Token.string (some text)).spelling ++ rest) =
      some (.string (some text), rest) := by
  obtain ⟨parts, htext, hparts⟩ := exists_parts text.toList
  have hread := hparts [] rest
  simp only [Token.spelling, Option.getD_some, quoted, String.toList_ofList, List.cons_append,
    List.append_assoc, List.nil_append]
  rw [Token.next?, hread]
  simp only [List.reverse_nil, List.nil_append, Option.map_some, htext, String.ofList_toList]

/-- A number cannot go on here. -/
def EndsNumber (rest : List Char) : Prop :=
  ∀ c ∈ rest.head?, c.isDigit = false ∧ c ≠ '.' ∧ c ≠ 'e' ∧ c ≠ 'E'

/-- Digits are taken up to something else. -/
theorem digits_append {ds rest : List Char} (hds : ∀ c ∈ ds, c.isDigit)
    (hrest : ∀ c ∈ rest.head?, c.isDigit = false) : digits (ds ++ rest) = (ds, rest) := by
  rw [digits, List.takeWhile_append_of_pos hds, List.dropWhile_append_of_pos hds]
  cases rest with
  | nil => simp
  | cons c rest =>
    have hc := hrest c rfl
    simp [hc]

/-- The exponent of a spelling, if there is one. -/
def exponentSpelling : Option (Bool × List Char) → List Char
  | none => []
  | some (negative, ds) => 'e' :: (if negative then '-' else '+') :: ds

/-- An exponent is read back. -/
theorem exponentPart_spelling {n : Numeral} (h : n.WellSpelled) {rest : List Char}
    (hrest : EndsNumber rest) :
    exponentPart (exponentSpelling n.exponent ++ rest) = some (n.exponent, rest) := by
  cases hexponent : n.exponent with
  | none =>
    cases rest with
    | nil => rfl
    | cons c rest =>
      obtain ⟨_, _, he, hE⟩ := hrest c rfl
      simp [exponentSpelling, exponentPart, he, hE]
  | some e =>
    obtain ⟨negative, ds⟩ := e
    obtain ⟨hne, hds⟩ := h.exponent _ hexponent
    have hsign : exponentSign ((if negative then '-' else '+') :: (ds ++ rest)) =
        (negative, ds ++ rest) := by
      cases negative <;> rfl
    have hdigits : digits (ds ++ rest) = (ds, rest) :=
      digits_append hds fun c hc => (hrest c hc).1
    simp only [exponentSpelling, List.cons_append, exponentPart, true_or, if_true, hsign, hdigits]

/-- The characters of a fraction, if there is one. -/
def fractionSpelling (fraction : List Char) : List Char :=
  if fraction.isEmpty then [] else '.' :: fraction

/-- Digits behind the point are read back. -/
theorem fractionPart_spelling {n : Numeral} (h : n.WellSpelled) {rest : List Char}
    (hdigit : ∀ c ∈ rest.head?, c.isDigit = false) (hpoint : rest.head? ≠ some '.') :
    fractionPart (fractionSpelling n.fraction ++ rest) = some (n.fraction, rest) := by
  have hdigits : digits (n.fraction ++ rest) = (n.fraction, rest) := digits_append h.fraction hdigit
  cases hfraction : n.fraction with
  | nil =>
    rw [fractionSpelling, List.isEmpty_nil, if_pos rfl, List.nil_append]
    cases rest with
    | nil => rfl
    | cons c rest =>
      have hc : c ≠ '.' := fun heq => hpoint (congrArg some heq)
      rw [fractionPart.eq_def]
      split <;> simp_all
  | cons d ds =>
    rw [hfraction] at hdigits
    simp only [fractionSpelling, List.isEmpty_cons, Bool.false_eq_true, if_false, List.cons_append,
      fractionPart] at hdigits ⊢
    rw [hdigits]

/-- Digits before the point are read back. -/
theorem wholePart_spelling {n : Numeral} (h : n.WellSpelled) {rest : List Char}
    (hdigit : ∀ c ∈ rest.head?, c.isDigit = false) :
    wholePart (n.whole ++ rest) = some (n.whole, rest) := by
  have hdigits : digits (n.whole ++ rest) = (n.whole, rest) := digits_append h.whole hdigit
  cases hwhole : n.whole with
  | nil => exact absurd hwhole h.whole_ne_nil
  | cons d ds =>
    rw [hwhole] at hdigits
    by_cases hzero : d = '0'
    · have honly := h.head (by rw [hwhole, hzero]; rfl)
      rw [hwhole] at honly
      cases honly
      rfl
    · rw [wholePart.eq_def]
      split <;> simp_all

/-- A number is read back up to where it cannot go on. -/
theorem magnitude_spelling {n : Numeral} (h : n.WellSpelled) {rest : List Char}
    (hrest : EndsNumber rest) :
    magnitude n.negative (n.whole ++ (fractionSpelling n.fraction ++
      (exponentSpelling n.exponent ++ rest))) = some (n, rest) := by
  have hexponent : ∀ c ∈ (exponentSpelling n.exponent ++ rest).head?,
      c.isDigit = false ∧ c ≠ '.' := by
    cases n.exponent with
    | none => exact fun c hc => ⟨(hrest c hc).1, (hrest c hc).2.1⟩
    | some e => simp [exponentSpelling]
  have hfraction : ∀ c ∈ (fractionSpelling n.fraction ++
      (exponentSpelling n.exponent ++ rest)).head?, c.isDigit = false := by
    cases n.fraction with
    | nil => exact fun c hc => (hexponent c hc).1
    | cons => simp [fractionSpelling]
  rw [magnitude, wholePart_spelling h hfraction]
  simp only [Option.bind_eq_bind, Option.bind_some]
  rw [fractionPart_spelling h (fun c hc => (hexponent c hc).1)
    fun hpoint => (hexponent '.' hpoint).2 rfl]
  simp only [Option.bind_some]
  rw [exponentPart_spelling h hrest]
  rfl

/-- The token of a number is cut off where it cannot go on. -/
theorem next?_number {n : Numeral} (h : n.WellSpelled) {rest : List Char}
    (hrest : EndsNumber rest) :
    Token.next? ((Token.scalar (.number n)).spelling ++ rest) =
      some (.scalar (.number n), rest) := by
  have hspelling : (Token.scalar (.number n)).spelling ++ rest =
      (if n.negative then ['-'] else []) ++ (n.whole ++ (fractionSpelling n.fraction ++
        (exponentSpelling n.exponent ++ rest))) := by
    simp only [Token.spelling, Numeral.text, String.toList_ofList, fractionSpelling,
      List.append_assoc]
    cases n.exponent <;> rfl
  have hmagnitude := magnitude_spelling h hrest
  rw [hspelling]
  cases hsign : n.negative with
  | true =>
    rw [hsign] at hmagnitude
    rw [if_pos rfl, List.cons_append, List.nil_append, Token.next?, hmagnitude]
    rfl
  | false =>
    rw [hsign] at hmagnitude
    rw [if_neg Bool.false_ne_true, List.nil_append]
    obtain ⟨d, ds, hwhole⟩ := List.exists_cons_of_ne_nil h.whole_ne_nil
    have hd : d.isDigit = true := h.whole d (by rw [hwhole]; exact List.mem_cons_self)
    rw [hwhole, List.cons_append] at hmagnitude ⊢
    rw [Token.next?.eq_def]
    -- No other token starts with a digit.
    split <;> simp_all

/-- A token that is cut off at the front of a text is the next one scanned. -/
theorem scan_token {token : Token} {seen : List Token} {rest : List Char}
    (hhead : ∀ c ∈ token.spelling.head?, isBlank c = false)
    (hnext : Token.next? (token.spelling ++ rest) = some (token, rest)) :
    Token.scan seen (token.spelling ++ rest) = Token.scan (token :: seen) rest := by
  cases hspelling : token.spelling with
  | nil =>
    have hshorter := Token.length_of_next? hnext
    rw [hspelling] at hshorter
    exact absurd hshorter (Nat.lt_irrefl _)
  | cons c cs =>
    have hblank := hhead c (by rw [hspelling]; rfl)
    rw [hspelling] at hnext
    rw [List.cons_append] at hnext ⊢
    conv_lhs => rw [Token.scan]
    simp only [hblank, Bool.false_eq_true, if_false]
    split
    · next hnone => simp [hnext] at hnone
    · next hsome =>
      rw [hnext] at hsome
      cases hsome
      rfl

/-- Tokens are scanned from their text, whatever follows that cannot continue a number. -/
def Scans (tokens : List Token) : Prop := ∀ seen rest, EndsNumber rest →
  Token.scan seen (spell tokens ++ rest) = Token.scan (tokens.reverse ++ seen) rest

/-- Tokens are scanned before others that do not continue a number. -/
theorem Scans.append {first others : List Token} (hfirst : Scans first) (hothers : Scans others)
    (hends : ∀ rest, EndsNumber (spell others ++ rest)) : Scans (first ++ others) := by
  intro seen rest hrest
  rw [spell_append, List.append_assoc, hfirst _ _ (hends rest), hothers _ _ hrest,
    List.reverse_append, List.append_assoc]

/-- A token is scanned before others when it is cut off whatever follows. -/
theorem Scans.cons {token : Token} {others : List Token} (hothers : Scans others)
    (hhead : ∀ c ∈ token.spelling.head?, isBlank c = false)
    (hnext : ∀ rest, Token.next? (token.spelling ++ rest) = some (token, rest)) :
    Scans (token :: others) := by
  intro seen rest hrest
  rw [spell_cons, List.append_assoc, scan_token hhead (hnext _), hothers _ _ hrest,
    List.reverse_cons, List.append_assoc, List.cons_append, List.nil_append]

/-- The tokens that are written in one way only. -/
inductive Token.Fixed : Token → Prop
  /-- An opening brace. -/
  | openObject : Fixed .openObject
  /-- A closing brace. -/
  | closeObject : Fixed .closeObject
  /-- An opening bracket. -/
  | openArray : Fixed .openArray
  /-- A closing bracket. -/
  | closeArray : Fixed .closeArray
  /-- A colon. -/
  | colon : Fixed .colon
  /-- A comma. -/
  | comma : Fixed .comma
  /-- The literal `null`. -/
  | null : Fixed (.scalar .null)
  /-- The literals `true` and `false`. -/
  | bool (value : Bool) : Fixed (.scalar (.bool value))

/-- A token that is written in one way only is scanned before any others. -/
theorem Scans.fixed {token : Token} {others : List Token} (hothers : Scans others)
    (h : token.Fixed) : Scans (token :: others) := by
  refine hothers.cons ?_ fun rest => ?_
  · cases h with
    | bool value => cases value <;> simp [Token.spelling, isBlank]
    | _ => simp [Token.spelling, isBlank]
  · cases h with
    | bool value => cases value <;> rfl
    | _ => rfl

/-- The empty list of tokens is read back from the empty text. -/
theorem scans_nil : Scans [] := fun _ _ _ => rfl

/-- A string is scanned. -/
theorem Scans.string {others : List Token} (hothers : Scans others) (text : String) :
    Scans (.string (some text) :: others) :=
  hothers.cons (by simp [Token.spelling, quoted, isBlank]) (next?_string text)

/-- A number is scanned. -/
theorem scans_number {n : Numeral} (h : n.WellSpelled) : Scans [.scalar (.number n)] := by
  intro seen rest hrest
  rw [spell_cons, spell_nil, List.append_nil]
  refine scan_token (fun c hc => ?_) (next?_number h hrest)
  obtain ⟨d, ds, hwhole⟩ := List.exists_cons_of_ne_nil h.whole_ne_nil
  have hd : d.isDigit = true := h.whole d (by rw [hwhole]; exact List.mem_cons_self)
  have hmark : c = '-' ∨ c = d := by
    cases hsign : n.negative <;>
      simp [Token.spelling, Numeral.text, hsign, hwhole] at hc <;> simp [← hc]
  rcases hmark with rfl | rfl
  · rfl
  · rw [isBlank]
    have hne : ∀ x : Char, x.isDigit = false → (c == x) = false := fun x hx =>
      beq_false_of_ne fun heq => by rw [heq, hx] at hd; cases hd
    rw [hne ' ' rfl, hne '\t' rfl, hne '\n' rfl, hne '\r' rfl]
    rfl

/-- Further items cannot continue a number. -/
theorem endsNumber_itemTokens (items : List Json) (rest : List Char) :
    EndsNumber (spell (itemTokens items) ++ rest) := by
  cases items <;> simp [EndsNumber, itemTokens, Token.spelling]

/-- Further members cannot continue a number. -/
theorem endsNumber_memberTokens (members : List (Option String × Json)) (rest : List Char) :
    EndsNumber (spell (memberTokens members) ++ rest) := by
  cases members <;> simp [EndsNumber, memberTokens, Token.spelling]

/-- Items are scanned one after the other. -/
theorem scans_itemTokens {items : List Json} (h : ∀ item ∈ items, Scans item.tokens) :
    Scans (itemTokens items) := by
  induction items with
  | nil => exact scans_nil.fixed .closeArray
  | cons item items ih =>
    obtain ⟨hitem, hitems⟩ := List.forall_mem_cons.1 h
    rw [itemTokens]
    refine Scans.fixed ?_ .comma
    exact hitem.append (ih hitems) (endsNumber_itemTokens items)

/-- Members are scanned one after the other. -/
theorem scans_memberTokens {members : List (Option String × Json)}
    (hkeys : ∀ m ∈ members, m.1.isSome) (h : ∀ m ∈ members, Scans m.2.tokens) :
    Scans (memberTokens members) := by
  induction members with
  | nil => exact scans_nil.fixed .closeObject
  | cons m members ih =>
    obtain ⟨hkey, hothers⟩ := List.forall_mem_cons.1 hkeys
    obtain ⟨hvalue, hvalues⟩ := List.forall_mem_cons.1 h
    obtain ⟨key, value⟩ := m
    obtain ⟨text, rfl⟩ := Option.isSome_iff_exists.1 hkey
    rw [memberTokens]
    refine Scans.fixed ?_ .comma
    refine Scans.string ?_ text
    refine Scans.fixed ?_ .colon
    exact hvalue.append (ih hothers hvalues) (endsNumber_memberTokens members)

/-- The tokens of a value are scanned from its text. -/
theorem WellSpelled.scans {value : Json} (h : value.WellSpelled) : Scans value.tokens := by
  induction h with
  | null => exact scans_nil.fixed .null
  | bool value => exact scans_nil.fixed (.bool value)
  | number hn => exact scans_number hn
  | string text => exact scans_nil.string text
  | @array items _ ih =>
    cases items with
    | nil =>
      rw [tokens]
      refine Scans.fixed ?_ .openArray
      exact scans_nil.fixed .closeArray
    | cons item items =>
      obtain ⟨hitem, hitems⟩ := List.forall_mem_cons.1 ih
      rw [tokens]
      refine Scans.fixed ?_ .openArray
      exact hitem.append (scans_itemTokens hitems) (endsNumber_itemTokens items)
  | @object members hkeys _ ih =>
    cases members with
    | nil =>
      rw [tokens]
      refine Scans.fixed ?_ .openObject
      exact scans_nil.fixed .closeObject
    | cons m members =>
      obtain ⟨hkey, hothers⟩ := List.forall_mem_cons.1 hkeys
      obtain ⟨hvalue, hvalues⟩ := List.forall_mem_cons.1 ih
      obtain ⟨key, value⟩ := m
      obtain ⟨text, rfl⟩ := Option.isSome_iff_exists.1 hkey
      rw [tokens]
      refine Scans.fixed ?_ .openObject
      refine Scans.string ?_ text
      refine Scans.fixed ?_ .colon
      exact hvalue.append (scans_memberTokens hothers hvalues) (endsNumber_memberTokens members)

end Scanning

section Reading

/-- The value whose tokens come next is read, and then what follows a value is expected. -/
def Reads (value : Json) : Prop := ∀ stack rest,
  ofTokens? .value stack (value.tokens ++ rest) = ofTokens? (.after value) stack rest

/-- The first token of a value starts a value where a first item may come as well. -/
theorem ofTokens?_firstItem (value : Json) (stack : List Enclosing) (rest : List Token) :
    ofTokens? .firstItem stack (value.tokens ++ rest) =
      ofTokens? .value stack (value.tokens ++ rest) := by
  obtain ⟨token, others, htokens, hclose⟩ : ∃ token others,
      value.tokens = token :: others ∧ token ≠ .closeArray := by
    rcases value with _ | value | n | text | ⟨_ | ⟨item, items⟩⟩ | ⟨_ | ⟨⟨key, value⟩, members⟩⟩ <;>
      exact ⟨_, _, rfl, by simp⟩
  rw [htokens, List.cons_append, ofTokens?, ofTokens?]
  have hadvance : advance? .firstItem stack token = advance? .value stack token := by
    rw [advance?.eq_def, advance?]
    split <;> simp_all
  rw [hadvance]

/-- Items are added to those before until the array ends. -/
theorem ofTokens?_itemTokens {items : List Json} (h : ∀ item ∈ items, Reads item)
    (before : List Json) (item : Json) (stack : List Enclosing) (rest : List Token) :
    ofTokens? (.after item) (.array before :: stack) (itemTokens items ++ rest) =
      ofTokens? (.after (.array (before.reverse ++ item :: items))) stack rest := by
  induction items generalizing before item with
  | nil => simp [itemTokens, ofTokens?, advance?]
  | cons next items ih =>
    obtain ⟨hnext, hitems⟩ := List.forall_mem_cons.1 h
    rw [itemTokens, List.cons_append, List.append_assoc]
    simp only [ofTokens?, advance?]
    rw [hnext, ih hitems]
    simp

/-- Members are added to those before until the object ends. -/
theorem ofTokens?_memberTokens {members : List (Option String × Json)}
    (h : ∀ m ∈ members, Reads m.2) (before : List (Option String × Json)) (key : Option String)
    (value : Json) (stack : List Enclosing) (rest : List Token) :
    ofTokens? (.after value) (.member before key :: stack) (memberTokens members ++ rest) =
      ofTokens? (.after (.object (before.reverse ++ (key, value) :: members))) stack rest := by
  induction members generalizing before key value with
  | nil => simp [memberTokens, ofTokens?, advance?]
  | cons m members ih =>
    obtain ⟨hvalue, hvalues⟩ := List.forall_mem_cons.1 h
    obtain ⟨nextKey, next⟩ := m
    rw [memberTokens, List.cons_append, List.cons_append, List.cons_append, List.append_assoc]
    simp only [ofTokens?, advance?]
    rw [hvalue, ih hvalues]
    simp

/-- A value is read from its tokens. -/
theorem WellSpelled.reads {value : Json} (h : value.WellSpelled) : Reads value := by
  induction h with
  | null | number | string => exact fun stack rest => rfl
  | bool value => cases value <;> exact fun stack rest => rfl
  | @array items _ ih =>
    intro stack rest
    cases items with
    | nil => rfl
    | cons item items =>
      obtain ⟨hitem, hitems⟩ := List.forall_mem_cons.1 ih
      rw [tokens, List.cons_append, List.append_assoc]
      simp only [ofTokens?, advance?, start?]
      rw [ofTokens?_firstItem, hitem, ofTokens?_itemTokens hitems]
      rfl
  | @object members _ _ ih =>
    intro stack rest
    cases members with
    | nil => rfl
    | cons m members =>
      obtain ⟨hvalue, hvalues⟩ := List.forall_mem_cons.1 ih
      obtain ⟨key, value⟩ := m
      rw [tokens, List.cons_append, List.cons_append, List.cons_append, List.append_assoc]
      simp only [ofTokens?, advance?, start?]
      rw [hvalue, ofTokens?_memberTokens hvalues]
      rfl

end Reading

/-- A well-spelled value is read back from its compact text. -/
theorem WellSpelled.read?_text {value : Json} (h : value.WellSpelled) :
    read? value.text = some value := by
  have hscan := h.scans [] [] (by simp [EndsNumber])
  have hread := h.reads [] []
  rw [List.append_nil] at hscan hread
  rw [read?, text, toList_write, String.toList_empty, List.nil_append, hscan, Token.scan,
    List.append_nil, List.reverse_reverse, Option.bind_some, hread]
  rfl

end Json

end ClauseResolution
