import ClauseResolution.Substitution.Store

/-!
# Occurrence of a variable under a substitution

The terms reached from a term through bindings are searched for a free variable. Each
slot is entered once, and only bound slots are entered, so the search ends for cyclic
substitutions as well.
-/

namespace ClauseResolution.Store

/-- The variable is met in one of the pending terms. At most `budget` more slots are
bound, and those in `entered` were searched or are pending. -/
def occursIn (σ : Store) (c : Context) (target : Var) (budget : Nat) (entered : List Nat) :
    List Term → Bool
  | [] => false
  | .var v :: rest =>
    match v.index with
    | none => occursIn σ c target budget entered rest
    | some slot =>
      if entered.contains slot then occursIn σ c target budget entered rest
      else
        match σ.lookup c slot with
        | none => v.same target || occursIn σ c target budget entered rest
        | some value =>
          match budget with
          | 0 => occursIn σ c target 0 entered rest
          | budget + 1 => occursIn σ c target budget (slot :: entered) (value :: rest)
  | .compound _ args _ :: rest => occursIn σ c target budget entered (args ++ rest)
  | .atom _ :: rest => occursIn σ c target budget entered rest
  | .number _ :: rest => occursIn σ c target budget entered rest
termination_by pending => (budget, Term.extents pending)
decreasing_by
  all_goals
    simp only [Term.extents, Term.extents_append, Term.extent, Prod.lex_def, true_and]
    omega

/-- The variable occurs free in a term under the substitution. -/
def occurs (σ : Store) (c : Context) (target : Var) (t : Term) : Bool :=
  σ.occursIn c target c.stamp [] [t]

end ClauseResolution.Store
