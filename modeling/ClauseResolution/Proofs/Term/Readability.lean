import ClauseResolution.Proofs.Term.Same
import ClauseResolution.Proofs.Term.Spelling

/-!
# Terms are read off their text

The texts of two terms of atoms and integers are different unless the terms are the same. A word is
followed by a parenthesis exactly if it is a functor, and a bracket that is not part of the name of
the empty list opens a list, since no term starts with a closing bracket. So the first characters
tell what kind of term it is and where its first part ends. That the parts are the same follows by
induction, for any text that goes on behind the term with a mark, and for the rest of a list.
-/

namespace ClauseResolution.Term

/-- The term is made of atoms and integers: there are no variables in it, and no floating-point
numbers. -/
structure IsExact (t : Term) : Prop where
  /-- No leaf is a variable. -/
  var_notMem : ∀ v, .var v ∉ t.leaves
  /-- No leaf is a floating-point number. -/
  float_notMem : ∀ x, .number (.float x) ∉ t.leaves

/-- The atom or integer that is written as a word. -/
def ofWord : Word → Term
  | .name name => .atom name
  | .int value => .number (.int value)

section Exact

variable {t : Term}

/-- The arguments of an exact term are exact. -/
theorem IsExact.of_mem_args (h : t.IsExact) {u : Term} (hu : u ∈ t.args) : u.IsExact := by
  have hleaves : ∀ leaf ∈ u.leaves, leaf ∈ t.leaves := fun leaf hleaf => by
    cases t with
    | compound functor args varCount =>
      rw [leaves_compound]
      exact List.mem_flatMap.2 ⟨u, hu, hleaf⟩
    | atom | number | var => exact absurd hu List.not_mem_nil
  exact ⟨fun v hv => h.var_notMem v (hleaves _ hv), fun x hx => h.float_notMem x (hleaves _ hx)⟩

/-- A word that is read as a term is written as the word. -/
theorem chars_ofWord (w : Word) : (ofWord w).chars = w.chars := by
  cases w with
  | name name => simp [ofWord, chars, text, write, Word.chars]
  | int value => simp [ofWord, chars, text, write, Word.chars]

/-- An exact term is a word, a list cell or another compound term. -/
theorem IsExact.cases (h : t.IsExact) : (∃ w, t = ofWord w) ∨
    (∃ head tail varCount, t = .compound cellFunctor [head, tail] varCount) ∨
    (∃ functor args varCount, t = .compound functor args varCount ∧ t.cell? = none) := by
  induction t using cellInduction with
  | cell head tail varCount => exact Or.inr (Or.inl ⟨head, tail, varCount, rfl⟩)
  | other t hcell =>
    match t with
    | .atom name => exact Or.inl ⟨.name name, rfl⟩
    | .number (.int value) => exact Or.inl ⟨.int value, rfl⟩
    | .number (.float x) => exact absurd (List.mem_singleton_self _) (h.float_notMem x)
    | .var v => exact absurd (List.mem_singleton_self _) (h.var_notMem v)
    | .compound functor args varCount => exact Or.inr (Or.inr ⟨functor, args, varCount, rfl, hcell⟩)

/-- An exact term does not start with what ends a word. -/
theorem IsExact.exists_chars (h : t.IsExact) (rest : List Char) :
    ∃ c cs, t.chars ++ rest = c :: cs ∧ c ∉ wordEnds := by
  obtain ⟨w, rfl⟩ | ⟨head, tail, varCount, rfl⟩ | ⟨functor, args, varCount, rfl, hcell⟩ := h.cases
  · obtain ⟨c, cs, hchars, hc⟩ := w.exists_chars
    exact ⟨c, cs ++ rest, by rw [chars_ofWord, hchars, List.cons_append], hc⟩
  · exact ⟨'[', _, chars_cell head tail varCount rest, by decide⟩
  · obtain ⟨c, cs, hchars, hc⟩ := (Word.name functor).exists_chars
    exact ⟨c, _, by rw [chars_compound hcell, hchars, List.cons_append], hc⟩

end Exact

/-- What follows an element of a list ends the element. -/
theorem goesOnIn_tailChars (t : Term) (rest : List Char) :
    GoesOnIn termEnds (tailChars t ++ ']' :: rest) := by
  obtain ⟨-, htail⟩ | ⟨head, tail, varCount, -, htail⟩ | htail := tailChars_cases t <;>
    rw [htail] <;> exact goesOnIn_cons (by decide) _

/-- Behind the arguments of a compound term the text goes on with a comma or bracket. -/
theorem goesOnIn_restChars (ts : List Term) (rest : List Char) :
    GoesOnIn termEnds (restChars ts ++ ')' :: rest) := by
  cases ts with
  | nil => exact goesOnIn_cons (by decide) _
  | cons t ts =>
    rw [restChars_cons]
    exact goesOnIn_cons (by decide) _

/-- The term can be read off a text that starts with it. -/
def IsReadOff (t : Term) : Prop := ∀ u r s, u.IsExact → GoesOnIn termEnds r → GoesOnIn termEnds s →
  t.chars ++ r = u.chars ++ s → t.same u ∧ r = s

/-- The term can be read off the rest of a list that ends in it or goes on with it. -/
def IsReadOffTail (t : Term) : Prop := ∀ u r s, u.IsExact →
  tailChars t ++ ']' :: r = tailChars u ++ ']' :: s → t.same u ∧ r = s

section ReadOff

variable {r s : List Char}

/-- A term that is a word is the same as itself. -/
theorem same_ofWord (w : Word) : (ofWord w).same (ofWord w) := by
  cases w with
  | name name => exact (same_iff_sameNode rfl).2 (beq_self_eq_true name)
  | int value => exact (same_iff_sameNode rfl).2 (beq_self_eq_true value)

/-- No word, with whatever follows it, looks like a list cell. -/
theorem word_ne_cell {head : Term} (hhead : head.IsExact) (w : Word) :
    w.chars ++ r ≠ '[' :: (head.chars ++ s) := by
  obtain ⟨c, cs, hchars, hc⟩ := hhead.exists_chars s
  intro h
  rw [hchars] at h
  exact hc (Word.eq_of_chars_append_eq h ▸ by decide)

/-- No word that ends a term looks like a functor in front of its arguments. -/
theorem word_ne_functor (hr : GoesOnIn termEnds r) (w : Word) (functor : String) :
    w.chars ++ r ≠ (Word.name functor).chars ++ '(' :: s := by
  intro h
  obtain ⟨-, rfl⟩ := Word.append_inj hr.wordEnds (goesOnIn_cons (by decide) s) h
  exact absurd (hr '(' rfl) (by decide)

/-- A word is read off, since it is not the start of a list nor, where a term ends, a functor. -/
theorem isReadOff_ofWord (w : Word) : (ofWord w).IsReadOff := by
  intro u r s hu hr hs h
  rw [chars_ofWord] at h
  obtain ⟨v, rfl⟩ | ⟨head, tail, varCount, rfl⟩ | ⟨functor, args, varCount, rfl, hcell⟩ := hu.cases
  · rw [chars_ofWord] at h
    obtain ⟨rfl, hrs⟩ := Word.append_inj hr.wordEnds hs.wordEnds h
    exact ⟨same_ofWord w, hrs⟩
  · rw [chars_cell] at h
    exact absurd h (word_ne_cell (hu.of_mem_args List.mem_cons_self) w)
  · rw [chars_compound hcell] at h
    exact absurd h (word_ne_functor hr w functor)

/-- A list is read off element by element. -/
theorem same_cell_of_items_eq {head tail head' tail' : Term} {varCount varCount' : Nat}
    (hhead : head.IsReadOff) (htail : tail.IsReadOffTail)
    (hexact' : (Term.compound cellFunctor [head', tail'] varCount').IsExact)
    (h : head.chars ++ (tailChars tail ++ ']' :: r) =
      head'.chars ++ (tailChars tail' ++ ']' :: s)) :
    (Term.compound cellFunctor [head, tail] varCount).same
      (.compound cellFunctor [head', tail'] varCount') ∧ r = s := by
  obtain ⟨hsame, hrest⟩ := hhead head' _ _ (hexact'.of_mem_args List.mem_cons_self)
    (goesOnIn_tailChars tail r) (goesOnIn_tailChars tail' s) h
  obtain ⟨hsame', hrs⟩ := htail tail' r s (hexact'.of_mem_args (by simp [args])) hrest
  exact ⟨same_compound.2 ⟨rfl, .cons hsame (.cons hsame' .nil)⟩, hrs⟩

/-- A list is read off, since only a list starts with its bracket. -/
theorem isReadOff_cell {head tail : Term} (hexact : head.IsExact) (hhead : head.IsReadOff)
    (htail : tail.IsReadOffTail) (varCount : Nat) :
    (Term.compound cellFunctor [head, tail] varCount).IsReadOff := by
  intro u r s hu hr hs h
  rw [chars_cell] at h
  obtain ⟨v, rfl⟩ | ⟨head', tail', varCount', rfl⟩ | ⟨functor, args, varCount', rfl, hcell⟩ :=
    hu.cases
  · rw [chars_ofWord] at h
    exact absurd h.symm (word_ne_cell hexact v)
  · rw [chars_cell] at h
    exact same_cell_of_items_eq hhead htail hu (List.cons.inj h).2
  · rw [chars_compound hcell] at h
    exact absurd h.symm (word_ne_cell hexact _)

/-- Further arguments that are written alike are the same, up to the closing bracket. -/
theorem same_of_restChars_eq {ts us : List Term} (hts : ∀ t ∈ ts, t.IsReadOff)
    (hus : ∀ u ∈ us, u.IsExact) (h : restChars ts ++ ')' :: r = restChars us ++ ')' :: s) :
    List.Forall₂ (fun t u => (t.same u : Prop)) ts us ∧ r = s := by
  induction ts generalizing us with
  | nil =>
    cases us with
    | nil => exact ⟨.nil, (List.cons.inj h).2⟩
    | cons u us =>
      rw [restChars_nil, restChars_cons] at h
      exact absurd (List.cons.inj h).1 (by decide)
  | cons t ts ih =>
    obtain ⟨ht, hts⟩ := List.forall_mem_cons.1 hts
    rw [restChars_cons] at h
    cases us with
    | nil => exact absurd (List.cons.inj h).1 (by decide)
    | cons u us =>
      obtain ⟨hu, hus⟩ := List.forall_mem_cons.1 hus
      rw [restChars_cons] at h
      obtain ⟨hsame, hrest⟩ := ht u _ _ hu (goesOnIn_restChars ts r) (goesOnIn_restChars us s)
        (List.cons.inj h).2
      obtain ⟨hothers, hrs⟩ := ih hts hus hrest
      exact ⟨.cons hsame hothers, hrs⟩

/-- The text of a first argument is not a closing parenthesis. -/
theorem argChars_cons_ne {t : Term} (ht : t.IsExact) (ts : List Term) :
    argChars r (t :: ts) ≠ ')' :: s := by
  obtain ⟨c, cs, hchars, hc⟩ := ht.exists_chars (restChars ts ++ ')' :: r)
  rw [argChars, hchars]
  exact fun heq => hc ((List.cons.inj heq).1 ▸ by decide)

/-- Arguments that are written alike are the same. -/
theorem same_of_argChars_eq {ts us : List Term} (hexact : ∀ t ∈ ts, t.IsExact)
    (hts : ∀ t ∈ ts, t.IsReadOff) (hus : ∀ u ∈ us, u.IsExact)
    (h : argChars r ts = argChars s us) :
    List.Forall₂ (fun t u => (t.same u : Prop)) ts us ∧ r = s := by
  cases ts with
  | nil =>
    cases us with
    | nil => exact ⟨.nil, (List.cons.inj h).2⟩
    | cons u us => exact absurd h.symm (argChars_cons_ne (hus u List.mem_cons_self) us)
  | cons t ts =>
    cases us with
    | nil => exact absurd h (argChars_cons_ne (hexact t List.mem_cons_self) ts)
    | cons u us =>
      obtain ⟨ht, hts⟩ := List.forall_mem_cons.1 hts
      obtain ⟨hu, hus⟩ := List.forall_mem_cons.1 hus
      obtain ⟨hsame, hrest⟩ := ht u _ _ hu (goesOnIn_restChars ts r) (goesOnIn_restChars us s) h
      obtain ⟨hothers, hrs⟩ := same_of_restChars_eq hts hus hrest
      exact ⟨.cons hsame hothers, hrs⟩

/-- Any other compound term is read off: the parenthesis tells its functor from an atom. -/
theorem isReadOff_compound {functor : String} {args : List Term} {varCount : Nat}
    (hcell : (Term.compound functor args varCount).cell? = none)
    (hexact : ∀ t ∈ args, t.IsExact) (hargs : ∀ t ∈ args, t.IsReadOff) :
    (Term.compound functor args varCount).IsReadOff := by
  intro u r s hu hr hs h
  rw [chars_compound hcell] at h
  obtain ⟨v, rfl⟩ | ⟨head, tail, _, rfl⟩ | ⟨functor', args', _, rfl, hcell'⟩ := hu.cases
  · rw [chars_ofWord] at h
    exact absurd h.symm (word_ne_functor hs v functor)
  · rw [chars_cell] at h
    exact absurd h (word_ne_cell (hu.of_mem_args List.mem_cons_self) _)
  · rw [chars_compound hcell'] at h
    obtain ⟨hfunctor, hrest⟩ :=
      Word.append_inj (goesOnIn_cons (by decide) _) (goesOnIn_cons (by decide) _) h
    obtain ⟨hsame, hrs⟩ := same_of_argChars_eq hexact hargs (fun _ => hu.of_mem_args)
      (List.cons.inj hrest).2
    exact ⟨same_compound.2 ⟨Word.name.inj hfunctor, hsame⟩, hrs⟩

/-- What is read off is read off at the end of a list as well: a list that goes on with a comma ends
later. -/
theorem isReadOffTail_of_isReadOff {t : Term} (ht : t.IsReadOff)
    (hcell : ∀ head tail varCount, t = .compound cellFunctor [head, tail] varCount →
      head.IsReadOff ∧ tail.IsReadOffTail) : t.IsReadOffTail := by
  intro u r s hu h
  obtain ⟨rfl, htail⟩ | ⟨head, tail, varCount, rfl, htail⟩ | htail := t.tailChars_cases <;>
    obtain ⟨rfl, htail'⟩ | ⟨head', tail', varCount', rfl, htail'⟩ | htail' := u.tailChars_cases <;>
    rw [htail, htail'] at h
  -- Both lists end, or both go on, or both have a bar: otherwise the first characters differ.
  case inl.inl => exact ⟨same_ofWord (.name nilName), (List.cons.inj h).2⟩
  case inr.inl.inr.inl =>
    obtain ⟨hhead, htail⟩ := hcell head tail varCount rfl
    exact same_cell_of_items_eq hhead htail hu (List.cons.inj h).2
  case inr.inr.inr.inr =>
    obtain ⟨hsame, hrest⟩ := ht u _ _ hu (goesOnIn_cons (by decide) r) (goesOnIn_cons (by decide) s)
      (List.cons.inj h).2
    exact ⟨hsame, (List.cons.inj hrest).2⟩
  all_goals exact absurd (List.cons.inj h).1 (by decide)

/-- Exact terms are read off a text, and off the rest of a list. -/
theorem IsExact.isReadOff {t : Term} (ht : t.IsExact) : t.IsReadOff ∧ t.IsReadOffTail := by
  -- A cell needs more of its tail than of other parts, so both notions are proved together.
  induction t using cellInduction with
  | cell head tail varCount ihhead ihtail =>
    have hhead : head.IsExact := ht.of_mem_args List.mem_cons_self
    have htail : tail.IsExact := ht.of_mem_args (by simp [args])
    have h := isReadOff_cell hhead (ihhead hhead).1 (ihtail htail).2 varCount
    refine ⟨h, isReadOffTail_of_isReadOff h fun head' tail' _ heq => ?_⟩
    cases heq
    exact ⟨(ihhead hhead).1, (ihtail htail).2⟩
  | other t hcell ih =>
    have h : t.IsReadOff := by
      obtain ⟨w, rfl⟩ | ⟨head, tail, varCount, rfl⟩ | ⟨functor, args, varCount, rfl, -⟩ := ht.cases
      · exact isReadOff_ofWord w
      · exact absurd ((cell?_cell head tail varCount).symm.trans hcell) (Option.some_ne_none _)
      · exact isReadOff_compound hcell (fun _ => ht.of_mem_args)
          fun u hu => (ih u hu (ht.of_mem_args hu)).1
    refine ⟨h, isReadOffTail_of_isReadOff h fun head tail varCount heq => ?_⟩
    rw [heq, cell?_cell] at hcell
    exact absurd hcell (Option.some_ne_none _)

end ReadOff

/-- Terms of atoms and integers are told apart by their text, whatever names occur in them and
however they are nested. -/
theorem same_of_text_eq {a b : Term} (ha : a.IsExact) (hb : b.IsExact) (h : a.text = b.text) :
    a.same b := by
  have hend : GoesOnIn termEnds [] := goesOnIn_nil termEnds
  have hchars : a.chars ++ [] = b.chars ++ [] := congrArg (String.toList · ++ []) h
  exact (ha.isReadOff.1 b [] [] hb hend hend hchars).1

/-- A term under a quoted functor with a partial list and a term without arguments is told by its
text, which does not show how many variables are counted. -/
theorem same_of_text_eq_of_count :
    let arguments := [listWithTail [.atom "a,b", .atom "[]"] (.number (.int (-1))), apply "-" []]
    let a := apply "f(" arguments
    let b := compound "f(" arguments 1
    a.text = b.text ∧ a.same b := by
  intro arguments a b
  have ha : a.IsExact := ⟨by simp [a, arguments, listWithTail, cell, apply],
    by simp [a, arguments, listWithTail, cell, apply]⟩
  have hb : b.IsExact := ⟨by simp [b, arguments, listWithTail, cell, apply],
    by simp [b, arguments, listWithTail, cell, apply]⟩
  exact ⟨rfl, same_of_text_eq ha hb rfl⟩

end ClauseResolution.Term
