import ClauseResolution.Term.Occurrence

/-!
# Stored terms

A compound term is stored at an address and may be referred to from many places. Two
occurrences with one address are one term, which the addresses tell at a glance; a copy
that was built apart has an address of its own. Clauses and goals are built anew, node by
node, when their variables are numbered, and a fresh instance of a clause builds anew
what contains a variable: in a search every occurrence is stored by itself.
-/

namespace ClauseResolution

/-- A compound term stands here. -/
def Occurrence.isCompound (o : Occurrence) : Bool := o.term.toCompound?.isSome

/-- Where compound terms are stored. -/
structure Layout where
  /-- The addresses. -/
  Address : Type
  /-- Addresses can be compared. -/
  [addressEq : DecidableEq Address]
  /-- The address of what stands at an occurrence. -/
  address : Occurrence → Address
  /-- Compound terms at one address are one term. -/
  coherent : ∀ {o o' : Occurrence}, o.isCompound → o'.isCompound → address o = address o' →
    o.term = o'.term
  /-- Unification drops a pair at one address without going through its arguments. -/
  glances : Bool := true

namespace Layout

attribute [instance] addressEq

/-- Every occurrence is stored by itself. -/
def byOccurrence : Layout where
  Address := Occurrence
  address o := o
  coherent _ _ h := congrArg Occurrence.term h

/-- Equal terms are stored once. -/
def byTerm : Layout where
  Address := Term
  address := Occurrence.term
  coherent _ _ h := h

/-- The same addresses, with or without the glance at them. -/
def glancing (layout : Layout) (glances : Bool) : Layout := { layout with glances := glances }

variable (layout : Layout)

/-- Both sides are one compound term in one place. -/
def shares (l r : Occurrence) : Bool :=
  l.isCompound && r.isCompound && layout.address l == layout.address r

/-- The pair is dropped at a glance. -/
def drops (l r : Occurrence) : Bool := layout.glances && layout.shares l r

/-- Both sides are one reference: the same atom, indexed variables of one slot, or one
compound term in one place. -/
def sameReference (l r : Occurrence) : Bool := l.term.sameConstant r.term || layout.drops l r

/-- One of the pairs stands at the addresses of the two sides. -/
def met (entered : List (Occurrence × Occurrence)) (l r : Occurrence) : Bool :=
  entered.any fun p => layout.shares p.1 l && layout.shares p.2 r

/-- What is stored in one place is one term. -/
theorem term_eq_of_shares {layout : Layout} {l r : Occurrence} (h : layout.shares l r = true) :
    l.term = r.term := by
  simp only [shares, Bool.and_eq_true, beq_iff_eq] at h
  exact layout.coherent h.1.1 h.1.2 h.2

/-- Every pair of the list is equal. What is stored in one place is not compared. -/
def equalAll : List (Occurrence × Occurrence) → Bool
  | [] => true
  | (l, r) :: rest =>
    if layout.shares l r then equalAll rest
    else l.term.sameNode r.term && equalAll (l.args.zip r.args ++ rest)
termination_by pairs => Term.extents (pairs.map fun p => p.1.term)
decreasing_by
  · simp only [List.map_cons, Term.extents]
    omega
  · have hargs := l.extents_zip_args_le r.args
    have hnode := Term.extent_eq l.term
    simp only [List.map_append, List.map_cons, Term.extents_append, Term.extents]
    omega

/-- Structural equality of stored terms. -/
def equal (l r : Occurrence) : Bool := layout.equalAll [(l, r)]

end Layout

end ClauseResolution
