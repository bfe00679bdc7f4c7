import ClauseResolution.Substitution.Store
import ClauseResolution.Term.Fold

/-!
# Applying a substitution throughout a term

The slots below a term are ordered so that each one comes after all slots in its
value; there is no such order when the substitution is cyclic below the term. The
values are then applied in that order, each of them once.
-/

namespace ClauseResolution

/-- What remains to be done in the walk over bound slots. -/
inductive SlotTask
  /-- Walk through a term. -/
  | visit (t : Term)
  /-- All slots in the value of this one are done. -/
  | close (slot : Nat)

/-- The extent of the remaining walk. -/
def SlotTask.extent : List SlotTask → Nat
  | [] => 0
  | .visit t :: rest => 1 + t.extent + SlotTask.extent rest
  | .close _ :: rest => 1 + SlotTask.extent rest

/-- Walks through the terms of a list before what remains. -/
def SlotTask.visits (ts : List Term) (rest : List SlotTask) : List SlotTask :=
  ts.map .visit ++ rest

/-- Visits have the extents of the terms that are visited, besides those of the tasks behind them.
-/
theorem SlotTask.extent_visits (ts : List Term) (rest : List SlotTask) :
    SlotTask.extent (SlotTask.visits ts rest) = Term.extents ts + SlotTask.extent rest := by
  induction ts with
  | nil => simp [SlotTask.visits, Term.extents]
  | cons t ts ih =>
    simp only [SlotTask.visits, List.map_cons, List.cons_append, SlotTask.extent,
      Term.extents] at ih ⊢
    omega

namespace Store

/-- The bound slots below the pending tasks, in front of those already `closed`, each
one before the slots in its value. `none` when a slot is met inside its own value; the
slots in `opened` are those being expanded, and at most `budget` more are bound. -/
def slotOrder (σ : Store) (c : Context) (budget : Nat) (opened closed : List Nat) :
    List SlotTask → Option (List Nat)
  | [] => some closed
  | .close slot :: rest => slotOrder σ c budget (opened.erase slot) (slot :: closed) rest
  | .visit (.var v) :: rest =>
    match v.index with
    | none => slotOrder σ c budget opened closed rest
    | some slot =>
      if closed.contains slot then slotOrder σ c budget opened closed rest
      else if opened.contains slot then none
      else
        match σ.lookup c slot with
        | none => slotOrder σ c budget opened closed rest
        | some value =>
          match budget with
          | 0 => none
          | budget + 1 =>
            slotOrder σ c budget (slot :: opened) closed (.visit value :: .close slot :: rest)
  | .visit (.compound _ args _) :: rest =>
    slotOrder σ c budget opened closed (SlotTask.visits args rest)
  | .visit (.atom _) :: rest => slotOrder σ c budget opened closed rest
  | .visit (.number _) :: rest => slotOrder σ c budget opened closed rest
termination_by tasks => (budget, SlotTask.extent tasks)
decreasing_by
  all_goals
    simp only [SlotTask.extent, SlotTask.extent_visits, Term.extent, Prod.lex_def, true_and]
    omega

end Store

/-- Puts the values of a table in the place of slots. Compound terms are built anew, and
no variables are counted below them. -/
def Term.substitute (table : List (Nat × Term)) (t : Term) : Term :=
  (Term.fold (σ := Unit) (ρ := Term)
    { enter := fun t _ => match t with
        | .var v => (.done ((v.index.bind (List.lookup · table)).getD t), ())
        | .compound .. => (.descend, ())
        | t => (.done t, ())
      leave := fun t values _ => match t with
        | .compound functor _ _ => (.apply functor values, ())
        | t => (t, ()) } t ()).1

namespace Store

/-- The table of the values of slots, with the values before them applied. -/
def tableOf (σ : Store) (c : Context) (order : List Nat) : List (Nat × Term) :=
  order.foldr
    (fun slot table => match σ.lookup c slot with
      | some value => (slot, value.substitute table) :: table
      | none => table) []

/-- The term with every bound variable replaced by its value, down to free variables.
`none` when the substitution is cyclic below the term. -/
def reify (σ : Store) (c : Context) (t : Term) : Option Term :=
  (σ.slotOrder c c.stamp [] [] [.visit t]).map fun order => t.substitute (σ.tableOf c order)

end Store

end ClauseResolution
