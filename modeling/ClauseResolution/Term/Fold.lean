import ClauseResolution.Term.Basic

/-!
# Folding terms on an explicit stack

A fold meets each subterm before its arguments, from left to right, and may answer
at once or ask for the values of the arguments first. The nodes that wait for
arguments are kept in a list, so the depth of a term is not bounded by the depth of
the machine's stack. A state runs through all visits in their order. The main
statement, `fold_eq_visit`, says that this is the fold by plain recursion.
-/

namespace ClauseResolution.Term

/-- What a fold does with a subterm it meets. -/
inductive Visit (ρ : Type)
  /-- The subterm has this value, whatever lies below it. -/
  | done (value : ρ)
  /-- Fold the arguments, then combine their values. -/
  | descend

/-- What a fold does on the way down and on the way up. -/
structure Visitor (σ ρ : Type) where
  /-- Meets a subterm before its arguments. -/
  enter : Term → σ → Visit ρ × σ
  /-- Combines the values of the arguments of a subterm, given in their order. -/
  leave : Term → List ρ → σ → ρ × σ

/-- A node that waits for the value of one of its arguments. -/
structure Waiting (ρ : Type) where
  /-- The node. -/
  node : Term
  /-- The arguments after the one being folded. -/
  later : List Term
  /-- The values of the arguments before it, last first. -/
  values : List ρ

/-- What lies in front of a fold. -/
inductive Focus (ρ : Type)
  /-- A subterm to be folded. -/
  | down (t : Term)
  /-- The value of a finished subterm. -/
  | up (value : ρ)

/-- The work left at a focus. -/
def Focus.work {ρ : Type} : Focus ρ → Nat
  | .down t => 2 * t.extent
  | .up _ => 1

/-- The work left at the waiting nodes. -/
def Waiting.work {ρ : Type} : List (Waiting ρ) → Nat
  | [] => 0
  | w :: stack => 1 + 2 * extents w.later + Waiting.work stack

/-- Continues a fold at a focus, with the nodes that wait for it, innermost first. -/
def Visitor.resume {σ ρ : Type} (v : Visitor σ ρ) :
    Focus ρ → List (Waiting ρ) → σ → ρ × σ
  | .up value, [], s => (value, s)
  | .up value, w :: stack, s =>
    match _h : w.later with
    | [] =>
      let (value, s) := v.leave w.node (value :: w.values).reverse s
      v.resume (.up value) stack s
    | next :: later => v.resume (.down next) (⟨w.node, later, value :: w.values⟩ :: stack) s
  | .down t, stack, s =>
    match v.enter t s with
    | (.done value, s) => v.resume (.up value) stack s
    | (.descend, s) =>
      match _h : t.args with
      | [] =>
        let (value, s) := v.leave t [] s
        v.resume (.up value) stack s
      | first :: later => v.resume (.down first) (⟨t, later, []⟩ :: stack) s
termination_by focus stack => focus.work + Waiting.work stack
decreasing_by
  · simp only [Focus.work, Waiting.work]; omega
  · simp only [Focus.work, Waiting.work, _h, extents]; omega
  · have := extent_pos t
    simp only [Focus.work]; omega
  · have := extent_pos t
    simp only [Focus.work]; omega
  · have := extent_eq t
    rw [_h] at this
    simp only [Focus.work, Waiting.work, extents] at this ⊢
    omega

/-- Folds a term from a starting state. -/
def fold {σ ρ : Type} (v : Visitor σ ρ) (t : Term) (s : σ) : ρ × σ := v.resume (.down t) [] s

variable {σ ρ : Type}

mutual

/-- The value of a subterm by recursion. -/
def Visitor.visit (v : Visitor σ ρ) : Term → σ → ρ × σ
  | t, s =>
    match v.enter t s with
    | (.done value, s) => (value, s)
    | (.descend, s) =>
      match t with
      | .compound functor args varCount =>
        let (values, s) := v.visitAll args s
        v.leave (.compound functor args varCount) values s
      | leaf => v.leave leaf [] s

/-- The values of a list of arguments, from left to right. -/
def Visitor.visitAll (v : Visitor σ ρ) : List Term → σ → List ρ × σ
  | [], s => ([], s)
  | t :: ts, s =>
    let (value, s) := v.visit t s
    let (values, s) := v.visitAll ts s
    (value :: values, s)

end

/-- Recursion on one node, whatever kind of term it is. -/
theorem Visitor.visit_eq (v : Visitor σ ρ) (t : Term) (s : σ) :
    v.visit t s = match v.enter t s with
      | (.done value, s) => (value, s)
      | (.descend, s) =>
        let (values, s) := v.visitAll t.args s
        v.leave t values s := by
  cases t <;> rw [Visitor.visit] <;> simp only [args, visitAll]

/-- A node that waits takes the values of its later arguments in their order. -/
theorem Visitor.resume_up_cons (v : Visitor σ ρ) (later : List Term)
    (hdown : ∀ t ∈ later, ∀ stack s,
      v.resume (.down t) stack s = v.resume (.up (v.visit t s).1) stack (v.visit t s).2)
    (node : Term) (values : List ρ) (value : ρ) (stack : List (Waiting ρ)) (s : σ) :
    v.resume (.up value) (⟨node, later, values⟩ :: stack) s =
      let rest := v.visitAll later s
      let result := v.leave node (values.reverse ++ value :: rest.1) rest.2
      v.resume (.up result.1) stack result.2 := by
  induction later generalizing values value s with
  | nil =>
    rw [resume]
    simp [visitAll]
  | cons t later ih =>
    rw [resume]
    dsimp only
    rw [hdown t (by simp), ih (fun u hu => hdown u (by simp [hu]))]
    simp [visitAll]

/-- Folding a subterm on the stack hands its value by recursion to the waiting nodes. -/
theorem Visitor.resume_down (v : Visitor σ ρ) (t : Term) (stack : List (Waiting ρ)) (s : σ) :
    v.resume (.down t) stack s = v.resume (.up (v.visit t s).1) stack (v.visit t s).2 := by
  induction hn : t.extent using Nat.strongRecOn generalizing t stack s with
  | ind n ih =>
    rw [resume, visit_eq]
    split
    · next h => simp
    · next s' h =>
      have hsmaller : ∀ u ∈ t.args, u.extent < n := fun u hu => by
        have := extent_lt_extents_of_mem hu
        have := extent_eq t
        omega
      split
      · next hargs => simp [hargs, visitAll]
      · next first later hargs =>
        rw [hargs] at hsmaller
        rw [ih first.extent (hsmaller first (by simp)) first _ _ rfl,
          resume_up_cons v later (fun u hu stack s =>
            ih u.extent (hsmaller u (by simp [hu])) u stack s rfl)]
        simp [hargs, visitAll]

/-- A fold on the stack is the fold by recursion. -/
theorem fold_eq_visit (v : Visitor σ ρ) (t : Term) (s : σ) : fold v t s = v.visit t s := by
  rw [fold, Visitor.resume_down, Visitor.resume]

end ClauseResolution.Term
