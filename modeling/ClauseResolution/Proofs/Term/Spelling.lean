import ClauseResolution.Proofs.Term.Words
import ClauseResolution.Term.Leaves
import ClauseResolution.Term.Text

/-!
# How terms are spelled

A term is written behind what was written before, so its text is put together from the texts of its
parts: a list has brackets, its elements and a bar in front of what ends it, and any other compound
term its functor and the arguments in parentheses. The lemmas give the characters of a term together
with what follows them, which is where the text is to be cut.
-/

namespace ClauseResolution.Term

variable {t head tail : Term} {functor : String} {args : List Term} {varCount : Nat}

/-- A cell is taken apart into its head and tail. -/
theorem cell?_cell (head tail : Term) (varCount : Nat) :
    (Term.compound cellFunctor [head, tail] varCount).cell? = some (head, tail) := by
  rw [cell?, if_pos rfl]

/-- What passes from head and tail to a list cell, and from the arguments to any other term, holds
of every term. -/
theorem cellInduction {motive : Term → Prop}
    (cell : ∀ head tail varCount, motive head → motive tail →
      motive (.compound cellFunctor [head, tail] varCount))
    (other : ∀ t : Term, t.cell? = none → (∀ u ∈ t.args, motive u) → motive t) (t : Term) :
    motive t := by
  induction t with
  | atom | number | var => exact other _ rfl nofun
  | compound functor args varCount ih =>
    by_cases hcell : functor = cellFunctor ∧ ∃ head tail, args = [head, tail]
    · obtain ⟨rfl, head, tail, rfl⟩ := hcell
      exact cell head tail varCount (ih head (by simp)) (ih tail (by simp))
    · refine other _ ?_ ih
      unfold cell?
      split
      · next functor head tail _ heq =>
        cases heq
        exact if_neg fun hfunctor => hcell ⟨hfunctor, head, tail, rfl⟩
      · rfl

/-- A list cell is written in brackets. -/
theorem write_cell (out : String) (head tail : Term) (varCount : Nat) :
    write out (.compound cellFunctor [head, tail] varCount) =
      (writeTail (write (out.push '[') head) tail).push ']' := by
  simp only [write, if_true]

/-- Any other compound term is written with its arguments in parentheses. -/
theorem write_compound (out : String) {first : Term} {rest : List Term}
    (h : (Term.compound functor (first :: rest) varCount).cell? = none) :
    write out (.compound functor (first :: rest) varCount) =
      (writeRest (write (out ++ Name.text functor ++ "(") first) rest).push ')' := by
  match rest with
  | [] => simp only [write]
  | [tail] =>
    have hfunctor : functor ≠ cellFunctor := fun heq => by simp [cell?, heq] at h
    simp only [write, if_neg hfunctor, writeRest]
  | _ :: _ :: _ => simp only [write]

/-- In a list, a cell is written behind a comma. -/
theorem writeTail_cell (out : String) (head tail : Term) (varCount : Nat) :
    writeTail out (.compound cellFunctor [head, tail] varCount) =
      writeTail (write (out.push ',') head) tail := by
  simp only [writeTail, if_true]

/-- What ends a list is written behind a bar, unless it is the empty list. -/
theorem writeTail_of_cell?_eq_none (out : String) (h : t.cell? = none) (hnil : t ≠ nil) :
    writeTail out t = write (out ++ "|") t := by
  match t with
  | .atom name =>
    have hname : name ≠ nilName := fun heq => hnil (congrArg atom heq)
    rw [writeTail, if_neg hname, write]
  | .number _ | .var _ | .compound _ [] _ | .compound _ [_] _ => simp only [writeTail, write]
  | .compound functor [_, _] _ =>
    have hfunctor : functor ≠ cellFunctor := fun heq => by simp [cell?, heq] at h
    simp only [writeTail, write, if_neg hfunctor]
  | .compound _ (_ :: _ :: _ :: _) _ => simp only [writeTail, write]

/-- The characters of a term. -/
def chars (t : Term) : List Char := t.text.toList

/-- The characters of the arguments after the first, each behind a comma. -/
def restChars (ts : List Term) : List Char := (writeRest "" ts).toList

/-- The characters of what follows an element of a list, up to the closing bracket. -/
def tailChars (t : Term) : List Char := (writeTail "" t).toList

/-- A term is written behind what was written before. -/
def IsAppended (t : Term) : Prop := ∀ out, (write out t).toList = out.toList ++ t.chars

/-- The further arguments are written behind what was written before. -/
theorem toList_writeRest {ts : List Term} (h : ∀ t ∈ ts, t.IsAppended) (out : String) :
    (writeRest out ts).toList = out.toList ++ restChars ts := by
  induction ts generalizing out with
  | nil => exact (List.append_nil _).symm
  | cons t ts ih =>
    obtain ⟨ht, hts⟩ := List.forall_mem_cons.1 h
    rw [restChars, writeRest, writeRest, ih hts, ih hts, ht, ht]
    simp

/-- The tail of a list that is no list is written behind what was written before. -/
theorem toList_writeTail_of_cell?_eq_none (h : t.IsAppended) (hcell : t.cell? = none)
    (out : String) : (writeTail out t).toList = out.toList ++ tailChars t := by
  by_cases hnil : t = nil
  · subst hnil
    simp [tailChars, writeTail, nil]
  · rw [tailChars, writeTail_of_cell?_eq_none _ hcell hnil, writeTail_of_cell?_eq_none _ hcell hnil,
      h, h]
    simp

/-- Terms and tails of lists are written behind what was written before. -/
theorem isAppended (t : Term) : t.IsAppended ∧
    ∀ out, (writeTail out t).toList = out.toList ++ tailChars t := by
  induction t using cellInduction with
  | cell head tail varCount ihhead ihtail =>
    obtain ⟨hhead, -⟩ := ihhead
    obtain ⟨-, htail⟩ := ihtail
    constructor
    · intro out
      rw [chars, text, write_cell, write_cell]
      simp [htail, hhead _]
    · intro out
      rw [tailChars, writeTail_cell, writeTail_cell]
      simp [htail, hhead _]
  | other t hcell ih =>
    have h : t.IsAppended := fun out => by
      match t with
      | .atom _ | .number _ | .var _ | .compound _ [] _ => simp [chars, text, write]
      | .compound functor (first :: rest) varCount =>
        obtain ⟨hfirst, hrest⟩ := List.forall_mem_cons.1 fun t ht => (ih t ht).1
        rw [chars, text, write_compound _ hcell, write_compound _ hcell]
        simp [toList_writeRest hrest, hfirst _]
    exact ⟨h, toList_writeTail_of_cell?_eq_none h hcell⟩

/-- A term is written behind what was written before. -/
theorem toList_write (out : String) (t : Term) : (write out t).toList = out.toList ++ t.chars :=
  (isAppended t).1 out

/-- The tail of a list is written behind what was written before. -/
theorem toList_writeTail (out : String) (t : Term) :
    (writeTail out t).toList = out.toList ++ tailChars t :=
  (isAppended t).2 out

/-- A list cell is a bracket, its head, what follows it, and a bracket. -/
theorem chars_cell (head tail : Term) (varCount : Nat) (rest : List Char) :
    (Term.compound cellFunctor [head, tail] varCount).chars ++ rest =
      '[' :: (head.chars ++ (tailChars tail ++ ']' :: rest)) := by
  rw [chars, text, write_cell]
  simp [toList_write, toList_writeTail]

/-- The characters of arguments and of what follows the closing parenthesis. -/
def argChars (rest : List Char) : List Term → List Char
  | [] => ')' :: rest
  | t :: ts => t.chars ++ (restChars ts ++ ')' :: rest)

/-- Any other compound term is its functor and its arguments in parentheses. -/
theorem chars_compound (h : (Term.compound functor args varCount).cell? = none)
    (rest : List Char) : (Term.compound functor args varCount).chars ++ rest =
      (Word.name functor).chars ++ '(' :: argChars rest args := by
  cases args with
  | nil => simp [chars, text, write, argChars, Word.chars]
  | cons first others =>
    rw [chars, text, write_compound _ h]
    simp [toList_write, toList_writeRest fun t _ => (isAppended t).1, argChars, Word.chars]

/-- No further arguments are written as the empty text. -/
theorem restChars_nil (rest : List Char) : restChars [] ++ rest = rest := rfl

/-- A further argument is written behind a comma, in front of the others. -/
theorem restChars_cons (t : Term) (ts : List Term) (rest : List Char) :
    restChars (t :: ts) ++ rest = ',' :: (t.chars ++ (restChars ts ++ rest)) := by
  rw [restChars, writeRest, toList_writeRest fun t _ => (isAppended t).1]
  simp [toList_write]

/-- A list goes on with a comma, ends in its bracket, or ends behind a bar. -/
theorem tailChars_cases (t : Term) :
    (t = nil ∧ ∀ rest, tailChars t ++ rest = rest) ∨
    (∃ head tail varCount, t = .compound cellFunctor [head, tail] varCount ∧
      ∀ rest, tailChars t ++ rest = ',' :: (head.chars ++ (tailChars tail ++ rest))) ∨
    ∀ rest, tailChars t ++ rest = '|' :: (t.chars ++ rest) := by
  induction t using cellInduction with
  | cell head tail varCount =>
    refine Or.inr (Or.inl ⟨head, tail, varCount, rfl, fun rest => ?_⟩)
    rw [tailChars, writeTail_cell]
    simp [toList_write, toList_writeTail]
  | other t hcell =>
    by_cases hnil : t = nil
    · exact Or.inl ⟨hnil, fun rest => hnil ▸ rfl⟩
    · refine Or.inr (Or.inr fun rest => ?_)
      rw [tailChars, writeTail_of_cell?_eq_none _ hcell hnil]
      simp [toList_write]

end ClauseResolution.Term
