import ClauseResolution.Term.Fold

/-!
# Normalization

Normalization numbers the variables of a term by their first occurrence, from left to
right, and stores at every compound term how many of them lie below it. Variables are
told apart by name and index together. The anonymous variable gets no number.
-/

namespace ClauseResolution

/-- The variables that have a slot, in slot order, as they were before. -/
structure Numbering where
  /-- The variable in each slot. -/
  slots : Array Var

namespace Numbering

/-- No variable has a slot. -/
def empty : Numbering := ⟨#[]⟩

/-- The slot of a variable; a new variable takes the next one. -/
def slot (n : Numbering) (v : Var) : Nat × Numbering :=
  match n.slots.idxOf? v with
  | some i => (i, n)
  | none => (n.slots.size, ⟨n.slots.push v⟩)

/-- The numbered variables, each with its slot as index. -/
def vars (n : Numbering) : List Var :=
  n.slots.toList.zipIdx.map fun (v, i) => ⟨v.name, some i⟩

/-- The union of two increasing lists of slots. -/
def mergeSlots : List Nat → List Nat → List Nat
  | [], bs => bs
  | as, [] => as
  | a :: as, b :: bs =>
    if a < b then a :: mergeSlots as (b :: bs)
    else if b < a then b :: mergeSlots (a :: as) bs
    else a :: mergeSlots as bs
termination_by as bs => as.length + bs.length

/-- Numbers the variables of a term and collects the slots below each node. -/
def visitor : Term.Visitor Numbering (Term × List Nat) where
  enter
    | .var v, n =>
      if v.isAnonymous then (.done (.var .anonymous, []), n)
      else
        let (i, n) := n.slot v
        (.done (.var ⟨v.name, some i⟩, [i]), n)
    | .compound .., n => (.descend, n)
    | t, n => (.done (t, []), n)
  leave
    | .compound functor _ _, values, n =>
      let below := values.foldl (fun slots value => mergeSlots slots value.2) []
      ((.compound functor (values.map Prod.fst) below.length, below), n)
    | t, _, n => ((t, []), n)

/-- Numbers the variables of a term after those that are numbered already. -/
def number (n : Numbering) (t : Term) : Term × Numbering :=
  let ((t, _), n) := Term.fold visitor t n
  (t, n)

end Numbering

/-- A term whose variables carry slots. -/
structure Normalized where
  /-- The term. -/
  term : Term
  /-- The variables in slot order; the one at position `i` has index `i`. -/
  vars : List Var

/-- Numbers the variables of a term. -/
def Term.normalize (t : Term) : Normalized :=
  let (t, n) := Numbering.empty.number t
  ⟨t, n.vars⟩

/-- Puts the terms of `frame` in the place of the slots of a normalized term. Terms
below which no variable is counted are left as they are. -/
def Term.instantiate (frame : Array Term) (t : Term) : Term :=
  (Term.fold (σ := Unit) (ρ := Term)
    { enter := fun t _ => match t with
        | .var v => (.done ((v.index.bind (frame[·]?)).getD t), ())
        | .compound _ _ varCount => (if 0 < varCount then .descend else .done t, ())
        | t => (.done t, ())
      leave := fun t values _ => match t with
        | .compound functor _ varCount => (.compound functor values varCount, ())
        | t => (t, ()) } t ()).1

end ClauseResolution
