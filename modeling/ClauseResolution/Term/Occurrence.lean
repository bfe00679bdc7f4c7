import ClauseResolution.Term.Equality

/-!
# Occurrences of terms

An occurrence is a term together with its place in the text in which it was written.
Equal terms that are written twice are one term at two occurrences. The nodes of a text
are numbered in reading order: a node comes before the nodes below it, and these come
before what follows. The arguments of an occurrence are occurrences in the same text.
-/

namespace ClauseResolution

namespace Term

/-- The number of nodes of the terms in a list, added to those already counted. -/
def countNodes (counted : Nat) : List Term → Nat
  | [] => counted
  | t :: ts => countNodes (counted + 1) (t.args ++ ts)
termination_by ts => extents ts
decreasing_by
  have := extent_eq t
  simp only [extents_append, extents]
  omega

/-- The number of nodes of a term. -/
def size (t : Term) : Nat := countNodes 0 [t]

/-- Nodes are added to those already counted. -/
theorem countNodes_add (counted more : Nat) (ts : List Term) :
    countNodes (counted + more) ts = countNodes counted ts + more := by
  fun_induction countNodes counted ts with
  | case1 => rw [countNodes]
  | case2 counted t ts ih => rw [countNodes, Nat.add_right_comm, ih]

/-- A node adds one to the nodes of its arguments. -/
theorem size_eq (t : Term) : t.size = 1 + countNodes 0 t.args := by
  rw [size, countNodes, List.append_nil, countNodes_add, Nat.add_comm]

end Term

/-- A term where it stands. -/
structure Occurrence where
  /-- The number of the text. -/
  text : Nat
  /-- The number of the node in the text at which the term begins. -/
  node : Nat
  /-- The term. -/
  term : Term
  deriving DecidableEq

namespace Occurrence

/-- A term that is the whole of a text. -/
def whole (text : Nat) (t : Term) : Occurrence := ⟨text, 0, t⟩

/-- Terms that follow each other in a text, the first of which begins at a node. -/
def series (text : Nat) : Nat → List Term → List Occurrence
  | _, [] => []
  | node, [t] => [⟨text, node, t⟩]
  | node, t :: ts => ⟨text, node, t⟩ :: series text (node + t.size) ts

/-- The arguments, each where it stands. -/
def args (o : Occurrence) : List Occurrence := series o.text (o.node + 1) o.term.args

/-- Terms that follow each other in a text are those terms. -/
theorem map_term_series (text node : Nat) (ts : List Term) :
    (series text node ts).map term = ts := by
  fun_induction series text node ts with
  | case1 => rfl
  | case2 => rfl
  | case3 node t ts _ ih => rw [List.map_cons, ih]

/-- The terms of the arguments are the arguments of the term. -/
theorem map_term_args (o : Occurrence) : o.args.map term = o.term.args := map_term_series ..

/-- An occurrence has as many arguments as its term. -/
theorem length_args (o : Occurrence) : o.args.length = o.term.args.length := by
  rw [← map_term_args, List.length_map]

/-- Beside other occurrences the arguments take no more room than they do by themselves. -/
theorem extents_zip_args_le (o : Occurrence) (others : List Occurrence) :
    Term.extents ((o.args.zip others).map fun p => p.1.term) ≤ Term.extents o.term.args := by
  have hmap : (o.args.zip others).map (fun p => p.1.term) =
      (o.term.args.zip (others.map term)).map Prod.fst := by
    rw [← o.map_term_args, List.zip_map, List.map_map]
    rfl
  rw [hmap]
  exact Term.extents_zip_le _ _

/-- A variable stands here. -/
def isVar (o : Occurrence) : Bool :=
  match o.term with
  | .var _ => true
  | _ => false

end Occurrence

end ClauseResolution
