import ClauseResolution.Substitution.Occurs
import ClauseResolution.Term.Layout

/-!
# Unification

Pairs of occurrences are solved one after the other, the arguments of a pair before what
was pending, from left to right. A pair of one compound term in one place is dropped. A
free variable is bound to the other side. With the occurs check a variable is not bound
to a term that contains it. Without the check a pair of compound terms reached through a
binding is entered once only: meeting the same two addresses again means that the terms
are equal if everything else is. There are only finitely many occurrences, so this ends
the walk over cyclic substitutions. Equal terms in different places are entered each for
itself.
-/

namespace ClauseResolution

/-- How a unification ends. The bindings made before a clash remain in the store. -/
inductive Unified
  /-- The terms are equal in this context. -/
  | unified (store : Store) (context : Context)
  /-- The terms cannot be made equal. -/
  | clash (store : Store)
  /-- The steps granted did not suffice. -/
  | unfinished

/-- Solves pending pairs within a number of steps. `entered` holds the pairs of
compound terms that were reached through a binding. -/
def unifyPairs (layout : Layout) (occursCheck : Bool) :
    Nat → Store → Context → List (Occurrence × Occurrence) → List (Occurrence × Occurrence) →
    Unified
  | _, σ, c, _, [] => .unified σ c
  | 0, _, _, _, _ :: _ => .unfinished
  | steps + 1, σ, c, entered, (rawLeft, rawRight) :: pending =>
    if layout.sameReference rawLeft rawRight then
      unifyPairs layout occursCheck steps σ c entered pending
    else
      let left := σ.deref c rawLeft
      let right := σ.deref c rawRight
      match left.term, right.term with
      | .var v, .var w =>
        if v.isAnonymous || w.isAnonymous || v.same w then
          unifyPairs layout occursCheck steps σ c entered pending
        else
          let (σ, c) := σ.bind c v right
          unifyPairs layout occursCheck steps σ c entered pending
      | .var v, other =>
        if v.isAnonymous then unifyPairs layout occursCheck steps σ c entered pending
        else if occursCheck && σ.occurs c v other then .clash σ
        else
          let (σ, c) := σ.bind c v right
          unifyPairs layout occursCheck steps σ c entered pending
      | other, .var v =>
        if v.isAnonymous then unifyPairs layout occursCheck steps σ c entered pending
        else if occursCheck && σ.occurs c v other then .clash σ
        else
          let (σ, c) := σ.bind c v left
          unifyPairs layout occursCheck steps σ c entered pending
      | .compound f as _, .compound g bs _ =>
        if layout.drops left right then unifyPairs layout occursCheck steps σ c entered pending
        else if f == g && as.length == bs.length then
          let arguments := left.args.zip right.args
          if !occursCheck && (rawLeft.isVar || rawRight.isVar) then
            if layout.met entered left right then
              unifyPairs layout occursCheck steps σ c entered pending
            else
              let entered := (left, right) :: entered
              unifyPairs layout occursCheck steps σ c entered (arguments ++ pending)
          else unifyPairs layout occursCheck steps σ c entered (arguments ++ pending)
        else .clash σ
      | .atom a, .atom b =>
        if a == b then unifyPairs layout occursCheck steps σ c entered pending else .clash σ
      | .number m, .number n =>
        if m.same n then unifyPairs layout occursCheck steps σ c entered pending else .clash σ
      | _, _ => .clash σ

/-- Unifies the terms of each pair in a context, from left to right, within a number of
steps. -/
def unifyAll (layout : Layout) (occursCheck : Bool) (steps : Nat) (σ : Store) (c : Context)
    (pairs : List (Occurrence × Occurrence)) : Unified :=
  unifyPairs layout occursCheck steps σ c [] pairs

/-- Unifies two terms in a context within a number of steps. -/
def unify (layout : Layout) (occursCheck : Bool) (steps : Nat) (σ : Store) (c : Context)
    (left right : Occurrence) : Unified :=
  unifyAll layout occursCheck steps σ c [(left, right)]

end ClauseResolution
