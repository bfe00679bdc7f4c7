import ClauseResolution.Number.Basic
import ClauseResolution.Term.Name
import Mathlib

/-!
# Names and integers in a text

The words of a text are the names of atoms and functors and the integers. A word ends at the end of
the text and before a bracket, a comma or a bar. A bare name and an integer contain no such mark, a
name between quotes ends at the first quote that is not escaped, and the name of the empty list at
its second bracket, so a word can be cut off the text that starts with it. Different words are
written differently. A text can also be divided at the last occurrence of a character.
-/

namespace ClauseResolution

/-- The characters that end a term. -/
def termEnds : List Char := [')', ',', ']', '|']

/-- The characters that end a word: a functor goes on with its arguments. -/
def wordEnds : List Char := '(' :: termEnds

/-- The characters that do not occur in bare names and integers, except that the name of the empty
list is bare. -/
def marks : List Char := '\'' :: '[' :: wordEnds

/-- A character that ends a word is a mark. -/
theorem mem_marks_of_mem_wordEnds {c : Char} (hc : c ∈ wordEnds) : c ∈ marks :=
  List.mem_cons_of_mem _ (List.mem_cons_of_mem _ hc)

/-- The text is at its end, or it goes on with one of some characters. -/
def GoesOnIn (stops rest : List Char) : Prop := ∀ c ∈ rest.head?, c ∈ stops

section GoesOnIn

variable {stops rest : List Char}

/-- A text goes on with its first character. -/
theorem goesOnIn_cons {c : Char} (hc : c ∈ stops) (rest : List Char) : GoesOnIn stops (c :: rest) :=
  fun _ hd => Option.some.inj hd ▸ hc

/-- The empty text is at its end. -/
theorem goesOnIn_nil (stops : List Char) : GoesOnIn stops [] := nofun

/-- What ends a term ends a word. -/
theorem GoesOnIn.wordEnds (h : GoesOnIn termEnds rest) : GoesOnIn wordEnds rest := fun c hc =>
  List.mem_cons_of_mem _ (h c hc)

end GoesOnIn

/-- There are characters, and none of them is a mark. -/
def IsPlain (cs : List Char) : Prop := cs ≠ [] ∧ ∀ c ∈ cs, c ∉ marks

section Plain

variable {cs ds r s : List Char}

/-- Plain characters are cut off where the first mark stands. -/
theorem takeWhile_append_of_isPlain (h : IsPlain cs) (hr : GoesOnIn wordEnds r) :
    (cs ++ r).takeWhile (fun c => decide (c ∉ marks)) = cs := by
  rw [List.takeWhile_append_of_pos fun c hc => decide_eq_true (h.2 c hc)]
  cases r with
  | nil => exact List.append_nil cs
  | cons c r =>
    have hc : c ∈ marks := mem_marks_of_mem_wordEnds (hr c rfl)
    rw [List.takeWhile_cons_of_neg (by simpa using hc), List.append_nil]

/-- Plain characters can be cut off a text that goes on with the end of a word. -/
theorem IsPlain.append_inj (h : IsPlain cs) (h' : IsPlain ds) (hr : GoesOnIn wordEnds r)
    (hs : GoesOnIn wordEnds s) (heq : cs ++ r = ds ++ s) : cs = ds ∧ r = s := by
  have hcs : cs = ds := by
    rw [← takeWhile_append_of_isPlain h hr, heq, takeWhile_append_of_isPlain h' hs]
  subst hcs
  exact ⟨rfl, List.append_cancel_left heq⟩

/-- Plain characters do not start with a mark. -/
theorem IsPlain.append_ne {c : Char} (h : IsPlain cs) (hc : c ∈ marks) : cs ++ r ≠ c :: s := by
  obtain ⟨first, cs, rfl⟩ := List.exists_cons_of_ne_nil h.1
  intro heq
  exact h.2 first List.mem_cons_self ((List.cons.inj heq).1 ▸ hc)

end Plain

section Divided

variable {c : Char}

/-- Characters are divided at the last occurrence of one of them. -/
theorem append_cons_inj_of_last {cs ds r s : List Char} (hr : c ∉ r) (hs : c ∉ s)
    (h : cs ++ c :: r = ds ++ c :: s) : cs = ds ∧ r = s := by
  induction cs generalizing ds with
  | nil =>
    cases ds with
    | nil => exact ⟨rfl, (List.cons.inj h).2⟩
    | cons d ds =>
      exact absurd ((List.cons.inj h).2 ▸ List.mem_append_right ds List.mem_cons_self) hr
  | cons d cs ih =>
    cases ds with
    | nil => exact absurd ((List.cons.inj h).2 ▸ List.mem_append_right cs List.mem_cons_self) hs
    | cons d' ds =>
      obtain ⟨rfl, htail⟩ := List.cons.inj h
      obtain ⟨rfl, hrest⟩ := ih htail
      exact ⟨rfl, hrest⟩

/-- A text that is put together from a name, a mark and a suffix without the mark can be taken
apart, whatever the name is. -/
theorem append_mark_inj {mark name name' suffix suffix' : String} (hmark : mark.toList = [c])
    (hsuffix : c ∉ suffix.toList) (hsuffix' : c ∉ suffix'.toList)
    (h : name ++ mark ++ suffix = name' ++ mark ++ suffix') : name = name' ∧ suffix = suffix' := by
  have hchars := congrArg String.toList h
  simp only [String.toList_append, hmark, List.append_assoc, List.singleton_append] at hchars
  obtain ⟨hname, hrest⟩ := append_cons_inj_of_last hsuffix hsuffix' hchars
  exact ⟨String.toList_inj.1 hname, String.toList_inj.1 hrest⟩

end Divided

namespace Name

/-- A bare name is punctuation, or it is a word of letters, digits and underscores that starts with
a small letter, or it has operator characters only. -/
theorem isBare_cases {name : String} (h : isBare name = true) : name ∈ punctuation ∨
    (∃ first rest, name.toList = first :: rest ∧ first.isLower = true ∧
      ∀ c ∈ rest, continues c = true) ∨
    (name.toList ≠ [] ∧ ∀ c ∈ name.toList, c ∈ operatorCharacters) := by
  rcases Bool.or_eq_true_iff.1 h with hpunctuation | hsymbol
  · exact Or.inl (List.contains_iff_mem.1 hpunctuation)
  · right
    split at hsymbol
    · exact absurd hsymbol Bool.false_ne_true
    · next first rest hname =>
      split at hsymbol
      · next hfirst => exact Or.inl ⟨first, rest, hname, hfirst, List.all_eq_true.1 hsymbol⟩
      · refine Or.inr ⟨hname ▸ List.cons_ne_nil first rest, fun c hc => ?_⟩
        exact List.contains_iff_mem.1 (List.all_eq_true.1 hsymbol c (hname ▸ hc))

/-- A bare name other than the empty list is plain. -/
theorem isPlain_of_isBare {name : String} (h : isBare name = true) (hnil : name ≠ "[]") :
    IsPlain name.toList := by
  have hpunctuation : ∀ name ∈ punctuation, name ≠ "[]" →
      name.toList ≠ [] ∧ name.toList.all fun c => decide (c ∉ marks) := by
    decide
  have hmarks : ∀ c ∈ marks, continues c = false ∧ c.isLower = false ∧ c ∉ operatorCharacters :=
    List.all_iff_forall_prop.1 (by decide)
  rcases isBare_cases h with hname | ⟨first, rest, hname, hfirst, hrest⟩ | ⟨hne, hoperators⟩
  · obtain ⟨hne, hplain⟩ := hpunctuation name hname hnil
    exact ⟨hne, List.all_iff_forall_prop.1 hplain⟩
  · refine ⟨hname ▸ List.cons_ne_nil first rest, hname ▸ fun c hc hmark => ?_⟩
    rcases List.mem_cons.1 hc with rfl | hc
    · exact absurd ((hmarks c hmark).2.1.symm.trans hfirst) Bool.false_ne_true
    · exact absurd ((hmarks c hmark).1.symm.trans (hrest c hc)) Bool.false_ne_true
  · exact ⟨hne, fun c hc hmark => (hmarks c hmark).2.2 (hoperators c hc)⟩

/-- A bare name starts with a small letter or has no digits. -/
theorem isLower_or_forall_of_isBare {name : String} (h : isBare name = true) :
    (∃ first rest, name.toList = first :: rest ∧ first.isLower = true) ∨
      ∀ c ∈ name.toList, c.isDigit = false := by
  have hpunctuation : ∀ name ∈ punctuation,
      name.toList.all fun c => decide (c.isDigit = false) := by
    decide
  have hoperator : ∀ c ∈ operatorCharacters, c.isDigit = false :=
    List.all_iff_forall_prop.1 (by decide)
  rcases isBare_cases h with hname | ⟨first, rest, hname, hfirst, -⟩ | ⟨-, hoperators⟩
  · exact Or.inr (List.all_iff_forall_prop.1 (hpunctuation name hname))
  · exact Or.inl ⟨first, rest, hname, hfirst⟩
  · exact Or.inr fun c hc => hoperator c (hoperators c hc)

/-- A character between quotes is escaped, or it is neither a quote nor a backslash. -/
theorem quoteCharacter_cases (c : Char) : quoteCharacter c = ['\\', c] ∨
    (quoteCharacter c = [c] ∧ c ≠ '\'' ∧ c ≠ '\\') := by
  rw [quoteCharacter]
  split
  · exact Or.inl rfl
  · next h => exact Or.inr ⟨rfl, not_or.1 h⟩

/-- No character between quotes looks like the closing quote. -/
theorem quoteCharacter_append_ne (c : Char) (r s : List Char) :
    quoteCharacter c ++ r ≠ '\'' :: s := by
  obtain h | ⟨h, hquote, -⟩ := quoteCharacter_cases c
  · rw [h]
    exact fun heq => absurd (List.cons.inj heq).1 (by decide)
  · rw [h]
    exact fun heq => hquote (List.cons.inj heq).1

/-- A character between quotes can be cut off the text that starts with it. -/
theorem quoteCharacter_append_inj {c d : Char} {r s : List Char}
    (h : quoteCharacter c ++ r = quoteCharacter d ++ s) : c = d ∧ r = s := by
  obtain hc | ⟨hc, -, hbackslash⟩ := quoteCharacter_cases c <;>
    obtain hd | ⟨hd, -, hbackslash'⟩ := quoteCharacter_cases d <;> rw [hc, hd] at h
  · exact List.cons.inj (List.cons.inj h).2
  · exact absurd (List.cons.inj h).1.symm hbackslash'
  · exact absurd (List.cons.inj h).1 hbackslash
  · exact List.cons.inj h

/-- A name between quotes ends at the first quote that is not escaped. -/
theorem flatMap_quoteCharacter_inj {cs ds r s : List Char}
    (h : cs.flatMap quoteCharacter ++ '\'' :: r = ds.flatMap quoteCharacter ++ '\'' :: s) :
    cs = ds ∧ r = s := by
  induction cs generalizing ds with
  | nil =>
    cases ds with
    | nil => exact ⟨rfl, (List.cons.inj h).2⟩
    | cons d ds =>
      rw [List.flatMap_cons, List.append_assoc] at h
      exact absurd h.symm (quoteCharacter_append_ne d _ _)
  | cons c cs ih =>
    cases ds with
    | nil =>
      rw [List.flatMap_cons, List.append_assoc] at h
      exact absurd h (quoteCharacter_append_ne c _ _)
    | cons d ds =>
      rw [List.flatMap_cons, List.flatMap_cons, List.append_assoc, List.append_assoc] at h
      obtain ⟨rfl, hrest⟩ := quoteCharacter_append_inj h
      obtain ⟨rfl, hrs⟩ := ih hrest
      exact ⟨rfl, hrs⟩

end Name

section Integers

/-- The sign and the digits of an integer. -/
theorem toList_toString_int (n : Int) : (toString n).toList =
    (if n < 0 then ['-'] else []) ++ Nat.toDigits 10 n.natAbs := by
  cases n with
  | ofNat m =>
    rw [if_neg (by simp)]
    exact String.toList_ofList
  | negSucc m =>
    rw [if_pos (Int.negSucc_lt_zero m)]
    exact String.toList_append.trans (congrArg _ String.toList_ofList)

/-- The digits of a number are digits. -/
theorem isDigit_toDigits {n : Nat} {c : Char} (hc : c ∈ Nat.toDigits 10 n) : c.isDigit = true :=
  Nat.isDigit_of_mem_toDigits (by decide) (by decide) hc

/-- The characters of a number are digits. -/
theorem isDigit_of_mem_toString {n : Nat} {c : Char} (hc : c ∈ (toString n).toList) :
    c.isDigit = true := by
  rw [Nat.toString_eq_ofList_toDigits, String.toList_ofList] at hc
  exact isDigit_toDigits hc

/-- An integer is written without marks. -/
theorem isPlain_int (n : Int) : IsPlain (toString n).toList := by
  have hmarks : ∀ c ∈ marks, c ≠ '-' ∧ c.isDigit = false :=
    List.all_iff_forall_prop.1 (by decide)
  rw [toList_toString_int]
  refine ⟨fun h => Nat.toDigits_ne_nil (List.append_eq_nil_iff.1 h).2, fun c hc hmark => ?_⟩
  obtain ⟨hminus, hdigit⟩ := hmarks c hmark
  rcases List.mem_append.1 hc with hsign | hdigits
  · split at hsign
    · exact hminus (List.mem_singleton.1 hsign)
    · exact List.not_mem_nil hsign
  · exact absurd (hdigit.symm.trans (isDigit_toDigits hdigits)) Bool.false_ne_true

/-- A digit is no small letter. -/
theorem isLower_of_isDigit {c : Char} (h : c.isDigit = true) : c.isLower = false := by
  refine Bool.eq_false_iff.2 fun hlower => ?_
  have hdigit : c.val ≤ '9'.val := of_decide_eq_true (Bool.and_eq_true_iff.1 h).2
  have hletter : 'a'.val ≤ c.val := of_decide_eq_true (Bool.and_eq_true_iff.1 hlower).1
  exact absurd (UInt32.le_trans hletter hdigit) (by decide)

/-- No integer is written like a bare name. -/
theorem isBare_int (n : Int) : Name.isBare (toString n) = false := by
  refine Bool.eq_false_iff.2 fun hbare => ?_
  obtain ⟨digit, digits, hdigits⟩ : ∃ digit digits, Nat.toDigits 10 n.natAbs = digit :: digits :=
    List.exists_cons_of_ne_nil Nat.toDigits_ne_nil
  have hdigit : digit.isDigit = true := isDigit_toDigits (hdigits ▸ List.mem_cons_self)
  have htext : (toString n).toList = (if n < 0 then ['-'] else []) ++ digit :: digits :=
    hdigits ▸ toList_toString_int n
  rcases Name.isLower_or_forall_of_isBare hbare with ⟨first, rest, hname, hfirst⟩ | hnone
  · have hlower : first.isLower = false := by
      rw [hname] at htext
      split at htext
      · rw [(List.cons.inj htext).1]
        decide
      · rw [(List.cons.inj htext).1]
        exact isLower_of_isDigit hdigit
    exact absurd (hlower.symm.trans hfirst) Bool.false_ne_true
  · have hmem : digit ∈ (toString n).toList := htext ▸ List.mem_append_right _ List.mem_cons_self
    exact absurd ((hnone digit hmem).symm.trans hdigit) Bool.false_ne_true

end Integers

/-- The name of an atom or functor, or an integer. -/
inductive Word
  /-- A name. -/
  | name (name : String)
  /-- An integer. -/
  | int (value : Int64)

namespace Word

variable {w v : Word} {r s : List Char}

/-- The text of a word before quotes are added. -/
def raw : Word → String
  | .name n => n
  | .int value => (Number.int value).text

/-- The characters of a word in a text. -/
def chars : Word → List Char
  | .name n => (Name.text n).toList
  | .int value => (Number.int value).text.toList

/-- The name of the empty list is written as its two brackets. -/
theorem chars_nil : (name "[]").chars = ['[', ']'] := by decide

/-- A word is the name of the empty list, or a name between quotes, or plain. -/
theorem chars_cases (w : Word) : w = name "[]" ∨
    (∃ n, w = name n ∧ w.chars = '\'' :: (n.toList.flatMap Name.quoteCharacter ++ ['\''])) ∨
    (IsPlain w.chars ∧ w.chars = w.raw.toList ∧ ∀ n, w = name n → Name.isBare n = true) := by
  cases w with
  | name n =>
    by_cases hnil : n = "[]"
    · exact Or.inl (congrArg name hnil)
    · right
      simp only [chars, Name.text]
      split
      · next hbare =>
        refine Or.inr ⟨Name.isPlain_of_isBare hbare hnil, rfl, fun m heq => ?_⟩
        rwa [← name.inj heq]
      · exact Or.inl ⟨n, rfl, String.toList_ofList⟩
  | int value => exact Or.inr (Or.inr ⟨isPlain_int value.toInt, rfl, nofun⟩)

/-- A word without quotes is told by its text. -/
theorem eq_of_raw_eq (hw : ∀ n, w = name n → Name.isBare n = true)
    (hv : ∀ n, v = name n → Name.isBare n = true) (h : w.raw = v.raw) : w = v := by
  have hint : ∀ value n, (Number.int value).text = n → Name.isBare n ≠ true := fun value n heq =>
    heq ▸ Bool.eq_false_iff.1 (isBare_int value.toInt)
  cases w with
  | name n =>
    cases v with
    | name m => exact congrArg name h
    | int value => exact absurd (hw n rfl) (hint value n h.symm)
  | int value =>
    cases v with
    | name n => exact absurd (hv n rfl) (hint value n h)
    | int value' =>
      exact congrArg int (Int64.toInt.inj (Int.repr_inj.1 h))

/-- A word can be cut off a text that starts with it. -/
theorem append_inj (hr : GoesOnIn wordEnds r) (hs : GoesOnIn wordEnds s)
    (h : w.chars ++ r = v.chars ++ s) : w = v ∧ r = s := by
  have hquote : '\'' ∈ marks := by decide
  have hbracket : '[' ∈ marks := by decide
  obtain rfl | ⟨n, rfl, hw⟩ | ⟨hw, hwraw, hwbare⟩ := w.chars_cases <;>
    obtain rfl | ⟨m, rfl, hv⟩ | ⟨hv, hvraw, hvbare⟩ := v.chars_cases
  -- Words of different kinds differ in the first character.
  · exact ⟨rfl, List.append_cancel_left h⟩
  · rw [chars_nil, hv] at h
    exact absurd (List.cons.inj h).1 (by decide)
  · rw [chars_nil] at h
    exact absurd h.symm (hv.append_ne hbracket)
  · rw [hw, chars_nil] at h
    exact absurd (List.cons.inj h).1 (by decide)
  · rw [hw, hv, List.cons_append, List.cons_append, List.append_assoc, List.append_assoc] at h
    obtain ⟨hchars, hrest⟩ := Name.flatMap_quoteCharacter_inj (List.cons.inj h).2
    exact ⟨congrArg name (String.toList_inj.1 hchars), hrest⟩
  · rw [hw] at h
    exact absurd h.symm (hv.append_ne hquote)
  · rw [chars_nil] at h
    exact absurd h (hw.append_ne hbracket)
  · rw [hv] at h
    exact absurd h (hw.append_ne hquote)
  · obtain ⟨hchars, hrest⟩ := hw.append_inj hv hr hs h
    rw [hwraw, hvraw] at hchars
    exact ⟨eq_of_raw_eq hwbare hvbare (String.toList_inj.1 hchars), hrest⟩

/-- A word does not start with what ends one. -/
theorem exists_chars (w : Word) : ∃ c cs, w.chars = c :: cs ∧ c ∉ wordEnds := by
  obtain rfl | ⟨n, -, hw⟩ | ⟨hw, -, -⟩ := w.chars_cases
  · exact ⟨'[', [']'], chars_nil, by decide⟩
  · exact ⟨'\'', _, hw, by decide⟩
  · obtain ⟨c, cs, hcs⟩ := List.exists_cons_of_ne_nil hw.1
    refine ⟨c, cs, hcs, fun hc => hw.2 c (hcs ▸ List.mem_cons_self) ?_⟩
    exact mem_marks_of_mem_wordEnds hc

/-- A word that starts with a bracket is the name of the empty list. -/
theorem eq_of_chars_append_eq {c : Char} (h : w.chars ++ r = '[' :: c :: s) : c = ']' := by
  obtain rfl | ⟨n, -, hw⟩ | ⟨hw, -, -⟩ := w.chars_cases
  · rw [chars_nil] at h
    exact (List.cons.inj (List.cons.inj h).2).1.symm
  · rw [hw] at h
    exact absurd (List.cons.inj h).1 (by decide)
  · exact absurd h (hw.append_ne (by decide))

end Word

end ClauseResolution
