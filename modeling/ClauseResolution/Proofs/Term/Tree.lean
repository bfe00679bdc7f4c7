import ClauseResolution.Proofs.Term.Same
import Mathlib.Data.PFunctor.Univariate.M
import Mathlib.Logic.Relation

/-!
# Finite and infinite trees

A cyclic substitution has no solution in terms, but it has one in trees that may go on for
ever. A tree has a symbol at its root and as many trees below as the arity says. Two trees
agree when they do so up to every depth, where symbols are compared as nodes of terms are.
When trees are given for slots, a term stands for the tree that has these trees in the
place of its variables.
-/

namespace ClauseResolution

/-- What may stand at a node of a tree. -/
inductive Symbol
  /-- An atom. -/
  | atom (name : String)
  /-- A number. -/
  | number (value : Number)
  /-- A functor, with the number of trees below. -/
  | functor (name : String) (arity : Nat)

namespace Symbol

/-- The number of trees below. -/
def arity : Symbol → Nat
  | .functor _ arity => arity
  | _ => 0

/-- The symbols are equal; numbers are compared by kind and value. -/
def same : Symbol → Symbol → Bool
  | .atom a, .atom b => a == b
  | .number m, .number n => m.same n
  | .functor f m, .functor g n => f == g && m == n
  | _, _ => false

/-- The symbol is a number that is not a number. -/
def isNaN : Symbol → Bool
  | .number value => value.isNaN
  | _ => false

variable {a b c : Symbol}

/-- A symbol is the same as itself unless it is not a number. -/
theorem same_self (h : a.isNaN = false) : a.same a := by
  cases a with
  | number value => exact Number.same_self h
  | atom | functor => simp [same]

/-- Sameness of symbols is symmetric. -/
theorem same_symm (h : a.same b) : b.same a := by
  cases a <;> cases b <;> simp only [same, Bool.false_eq_true] at h ⊢
  · exact beq_of_eq (eq_of_beq h).symm
  · rwa [Number.same_comm]
  · simp only [Bool.and_eq_true, beq_iff_eq] at h ⊢
    exact ⟨h.1.symm, h.2.symm⟩

/-- Sameness of symbols is transitive. -/
theorem same_trans (h : a.same b) (h' : b.same c) : a.same c := by
  cases a <;> cases b <;> simp only [same, Bool.false_eq_true] at h <;> cases c <;>
    simp only [same, Bool.false_eq_true] at h' ⊢
  · rwa [eq_of_beq h]
  · exact Number.same_trans h h'
  · simp only [Bool.and_eq_true, beq_iff_eq] at h h' ⊢
    exact ⟨h.1.trans h'.1, h.2.trans h'.2⟩

/-- The nodes that trees are made of. -/
def signature : PFunctor := ⟨Symbol, fun s => Fin s.arity⟩

end Symbol

/-- A finite or infinite tree: the terms of the signature that may go on for ever. -/
abbrev Tree : Type := Symbol.signature.M

namespace Tree

/-- The symbol at the root. -/
def root (t : Tree) : Symbol := (PFunctor.M.dest t).1

/-- The trees below a node. -/
def branches {α : Type} (node : Symbol.signature α) : List α := List.ofFn node.2

/-- The trees below the root, in order. -/
def args (t : Tree) : List Tree := branches (PFunctor.M.dest t)

/-- The node with a symbol and as many things below as it says. -/
def nodeOf {α : Type} (s : Symbol) (below : List α) (h : below.length = s.arity) :
    Symbol.signature α := ⟨s, fun i => below.get (i.cast h.symm)⟩

/-- The tree with a root and given trees below. -/
def node (s : Symbol) (ts : List Tree) (h : ts.length = s.arity) : Tree :=
  PFunctor.M.mk (nodeOf s ts h)

/-- A tree that is an atom. -/
def atom (name : String) : Tree := node (.atom name) [] rfl

/-- A tree that is a number. -/
def number (value : Number) : Tree := node (.number value) [] rfl

/-- The tree of a functor with given trees below. -/
def apply (functor : String) (ts : List Tree) : Tree := node (.functor functor ts.length) ts rfl

/-- The tree that grows from a seed: each seed has a symbol and the seeds below it. -/
def grow {α : Type} (symbol : α → Symbol) (next : α → List α)
    (h : ∀ x, (next x).length = (symbol x).arity) (x : α) : Tree :=
  PFunctor.M.corec (fun x => nodeOf (symbol x) (next x) (h x)) x

section Shape

variable {α : Type} {s : Symbol}

/-- A node has the branches from which it is made. -/
theorem branches_nodeOf {below : List α} (h : below.length = s.arity) :
    branches (nodeOf s below h) = below := by
  refine List.ext_getElem ?_ fun i _ _ => ?_
  · exact (List.length_ofFn).trans h.symm
  · exact List.getElem_ofFn _

/-- The trees below what is grown are grown from what is below. -/
theorem branches_map {β : Type} (f : α → β) (node : Symbol.signature α) :
    branches (Symbol.signature.map f node) = (branches node).map f := by
  obtain ⟨s, below⟩ := node
  exact (List.map_ofFn (n := s.arity) (f := below) (g := f)).symm

/-- A tree has the symbol at its root from which it is made. -/
theorem root_node {ts : List Tree} (h : ts.length = s.arity) : (node s ts h).root = s := by
  rw [root, node, PFunctor.M.dest_mk]
  rfl

/-- A tree has the arguments from which it is made. -/
theorem args_node {ts : List Tree} (h : ts.length = s.arity) : (node s ts h).args = ts := by
  rw [args, node, PFunctor.M.dest_mk, branches_nodeOf]

/-- The root of an atom is the atom. -/
@[simp] theorem root_atom (name : String) : (atom name).root = .atom name := root_node _

/-- An atom has no arguments. -/
@[simp] theorem args_atom (name : String) : (atom name).args = [] := args_node _

/-- The root of a number is the number. -/
@[simp] theorem root_number (value : Number) : (number value).root = .number value := root_node _

/-- A number has no arguments. -/
@[simp] theorem args_number (value : Number) : (number value).args = [] := args_node _

/-- The root of a compound tree is its functor, with the number of arguments. -/
@[simp] theorem root_apply (functor : String) (ts : List Tree) :
    (apply functor ts).root = .functor functor ts.length := root_node _

/-- A compound tree has the arguments to which its functor is applied. -/
@[simp] theorem args_apply (functor : String) (ts : List Tree) :
    (apply functor ts).args = ts := args_node _

/-- The tree that grows from a seed has the symbol of the seed at its root. -/
@[simp] theorem root_grow {symbol : α → Symbol} {next : α → List α}
    (h : ∀ x, (next x).length = (symbol x).arity) (x : α) :
    (grow symbol next h x).root = symbol x := by
  rw [root, grow, PFunctor.M.dest_corec]
  rfl

/-- The arguments of the tree that grows from a seed grow from the next seeds. -/
@[simp] theorem args_grow {symbol : α → Symbol} {next : α → List α}
    (h : ∀ x, (next x).length = (symbol x).arity) (x : α) :
    (grow symbol next h x).args = (next x).map (grow symbol next h) := by
  rw [args, grow, PFunctor.M.dest_corec, branches_map, branches_nodeOf]
  rfl

end Shape

/-- The trees are equal as far down as a depth. -/
def AgreeUpTo : Nat → Tree → Tree → Prop
  | 0, _, _ => True
  | depth + 1, t, u => t.root.same u.root ∧ List.Forall₂ (AgreeUpTo depth) t.args u.args

/-- The trees are equal throughout. -/
def Agree (t u : Tree) : Prop := ∀ depth, AgreeUpTo depth t u

/-- No number in the tree is not a number. -/
def NaNFree (t : Tree) : Prop :=
  ∀ u, Relation.ReflTransGen (fun t u => u ∈ t.args) t u → u.root.isNaN = false

variable {t u w : Tree} {depth : Nat}

/-- A tree is free of such numbers when its root and its arguments are. -/
theorem nanFree_iff : t.NaNFree ↔ t.root.isNaN = false ∧ ∀ u ∈ t.args, u.NaNFree := by
  constructor
  · exact fun h => ⟨h t .refl, fun u hu w hw => h w (.head hu hw)⟩
  · rintro ⟨hroot, hargs⟩ w hw
    rcases hw.cases_head with rfl | ⟨u, hu, hrest⟩
    · exact hroot
    · exact hargs u hu w hrest

namespace AgreeUpTo

/-- Trees that are equal further down are equal up to there. -/
theorem of_succ (h : AgreeUpTo (depth + 1) t u) : AgreeUpTo depth t u := by
  induction depth generalizing t u with
  | zero => trivial
  | succ depth ih => exact ⟨h.1, h.2.imp fun _ _ => ih⟩

/-- A tree agrees with itself up to every depth. -/
theorem refl (h : t.NaNFree) : AgreeUpTo depth t t := by
  induction depth generalizing t with
  | zero => trivial
  | succ depth ih =>
    obtain ⟨hroot, hargs⟩ := nanFree_iff.1 h
    exact ⟨Symbol.same_self hroot, List.forall₂_same.2 fun u hu => ih (hargs u hu)⟩

/-- Agreement up to a depth is symmetric. -/
theorem symm (h : AgreeUpTo depth t u) : AgreeUpTo depth u t := by
  induction depth generalizing t u with
  | zero => trivial
  | succ depth ih => exact ⟨Symbol.same_symm h.1, (h.2.imp fun _ _ => ih).flip⟩

/-- Agreement up to a depth is transitive. -/
theorem trans (h : AgreeUpTo depth t u) (h' : AgreeUpTo depth u w) : AgreeUpTo depth t w := by
  induction depth generalizing t u w with
  | zero => trivial
  | succ depth ih =>
    obtain ⟨hroot, hargs⟩ := h
    obtain ⟨hroot', hargs'⟩ := h'
    refine ⟨Symbol.same_trans hroot hroot', ?_⟩
    clear hroot hroot'
    generalize t.args = ts at hargs ⊢
    generalize u.args = us at hargs hargs'
    generalize w.args = ws at hargs' ⊢
    induction hargs generalizing ws with
    | nil =>
      cases hargs'
      exact .nil
    | cons hhead _ ihargs =>
      cases hargs' with
      | cons hhead' hrest => exact .cons (ih hhead hhead') (ihargs _ hrest)

end AgreeUpTo

namespace Agree

/-- A tree agrees with itself. -/
theorem refl (h : t.NaNFree) : t.Agree t := fun _ => .refl h

/-- Agreement of trees is symmetric. -/
theorem symm (h : t.Agree u) : u.Agree t := fun depth => (h depth).symm

/-- Agreement of trees is transitive. -/
theorem trans (h : t.Agree u) (h' : u.Agree w) : t.Agree w :=
  fun depth => (h depth).trans (h' depth)

/-- Trees are equal throughout exactly when their roots are and the trees below are. -/
theorem iff_args : t.Agree u ↔ t.root.same u.root ∧ List.Forall₂ Agree t.args u.args := by
  constructor
  · intro h
    obtain ⟨hlength, _⟩ := List.forall₂_iff_zip.1 (h 1).2
    refine ⟨(h 1).1, List.forall₂_iff_zip.2 ⟨hlength, fun {a b} hmem depth => ?_⟩⟩
    exact (List.forall₂_iff_zip.1 (h (depth + 1)).2).2 hmem
  · rintro ⟨hroot, hargs⟩ (_ | depth)
    · trivial
    · exact ⟨hroot, hargs.imp fun _ _ h => h depth⟩

end Agree

end Tree

/-- Trees for slots. -/
abbrev Forest := Nat → Tree

/-- No number in any of the trees is not a number. -/
def Forest.NaNFree (A : Forest) : Prop := ∀ slot, (A slot).NaNFree

mutual

/-- The tree a term stands for when trees are given for slots. A variable without a slot
stands for its name. -/
def Term.image (A : Forest) : Term → Tree
  | .var v => (v.index.map A).getD (.atom v.name)
  | .atom name => .atom name
  | .number value => .number value
  | .compound functor args _ => .apply functor (Term.imageAll A args)

/-- The trees the terms of a list stand for. -/
def Term.imageAll (A : Forest) : List Term → List Tree
  | [] => []
  | t :: ts => t.image A :: Term.imageAll A ts

end

namespace Term

variable {A : Forest} {a b : Term} {depth : Nat}

/-- The symbol at the root of a term. -/
def symbol : Term → Symbol
  | .atom name => .atom name
  | .number value => .number value
  | .var v => .atom v.name
  | .compound functor args _ => .functor functor args.length

/-- A term has as many arguments as its symbol says. -/
@[simp] theorem length_args_eq_arity (t : Term) : t.args.length = t.symbol.arity := by
  cases t <;> rfl

/-- The images of terms are taken one by one. -/
theorem imageAll_eq_map (ts : List Term) : imageAll A ts = ts.map (image A) := by
  induction ts with
  | nil => rfl
  | cons t ts ih => rw [imageAll, ih, List.map_cons]

/-- A variable with a slot stands for the tree of the slot. -/
theorem image_of_slot? {slot : Nat} (h : a.slot? = some slot) : a.image A = A slot := by
  cases a with
  | var v =>
    rw [slot?] at h
    rw [image, h, Option.map_some, Option.getD_some]
  | atom | number | compound => cases h

/-- The image of a compound term is its functor applied to the images of its arguments. -/
@[simp] theorem image_compound (f : String) (as : List Term) (m : Nat) :
    (compound f as m).image A = .apply f (as.map (image A)) := by
  rw [image, imageAll_eq_map]

/-- A term without a slot at its root stands for a tree with its own symbol there, and with
the trees for its arguments below. -/
theorem image_of_slot?_eq_none (h : a.slot? = none) :
    (a.image A).root = a.symbol ∧ (a.image A).args = a.args.map (image A) := by
  cases a with
  | atom | number => simp [image, symbol, args]
  | var v =>
    rw [slot?] at h
    simp [image, h, symbol, args]
  | compound f as m => simp [symbol, args]

/-- No number that is not a number comes in when none is given. -/
theorem nanFree_image (hA : A.NaNFree) (h : a.isNaNFree) : (a.image A).NaNFree := by
  induction a with
  | atom name => exact Tree.nanFree_iff.2 (by simp [image, Symbol.isNaN])
  | number value =>
    refine Tree.nanFree_iff.2 ?_
    simpa [image, Symbol.isNaN, isNaNFree] using h
  | var v =>
    cases hv : v.index with
    | some slot =>
      rw [image_of_slot? (a := .var v) hv]
      exact hA slot
    | none =>
      refine Tree.nanFree_iff.2 ?_
      simp [image, hv, Symbol.isNaN]
  | compound f as m ih =>
    rw [isNaNFree_compound] at h
    rw [image_compound]
    refine Tree.nanFree_iff.2 ⟨by simp [Symbol.isNaN], fun t ht => ?_⟩
    rw [Tree.args_apply] at ht
    obtain ⟨u, hu, rfl⟩ := List.mem_map.1 ht
    exact ih u hu (h u hu)

/-- The symbols of terms that are no variables are compared as their nodes are. -/
theorem symbol_same (ha : a.slot? = none) (hb : b.slot? = none) (hplain : a.isPlain)
    (hplain' : b.isPlain) : a.symbol.same b.symbol = a.sameNode b := by
  cases a with
  | var v =>
    obtain ⟨⟨slot, hslot⟩, _⟩ := isPlain_var.1 hplain
    rw [slot?, hslot] at ha
    cases ha
  | atom | number | compound =>
    cases b with
    | var w =>
      obtain ⟨⟨slot, hslot⟩, _⟩ := isPlain_var.1 hplain'
      rw [slot?, hslot] at hb
      cases hb
    | atom | number | compound => rfl

/-- Terms that are no variables stand for trees that agree one level further down than the
trees for their arguments, if their nodes are the same. -/
theorem agreeUpTo_succ_image_iff (ha : a.slot? = none) (hb : b.slot? = none)
    (hplain : a.isPlain) (hplain' : b.isPlain) :
    Tree.AgreeUpTo (depth + 1) (a.image A) (b.image A) ↔ a.sameNode b ∧
      List.Forall₂ (fun s t => Tree.AgreeUpTo depth (s.image A) (t.image A)) a.args b.args := by
  obtain ⟨hroot, hargs⟩ := image_of_slot?_eq_none (A := A) ha
  obtain ⟨hroot', hargs'⟩ := image_of_slot?_eq_none (A := A) hb
  rw [Tree.AgreeUpTo, hroot, hroot', hargs, hargs', symbol_same ha hb hplain hplain',
    List.forall₂_map_left_iff, List.forall₂_map_right_iff]

/-- Nodes without arguments that are the same stand for the same tree. -/
theorem agree_image_of_sameNode (hA : A.NaNFree) (hnode : a.sameNode b) (hargs : a.args = [])
    (hplain : a.isPlain) (hplain' : b.isPlain) : (a.image A).Agree (b.image A) := by
  cases ha : a.slot? with
  | some slot =>
    have hb : b.slot? = some slot := by
      cases a <;> cases b <;> simp only [sameNode, Bool.false_eq_true] at hnode <;>
        simp only [slot?, reduceCtorEq] at ha
      exact (Var.same_iff_index ha).1 hnode
    rw [image_of_slot? ha, image_of_slot? hb]
    exact .refl (hA slot)
  | none =>
    have hb : b.slot? = none := by
      cases hb : b.slot? with
      | none => rfl
      | some slot =>
        cases a <;> cases b <;> simp only [sameNode, Bool.false_eq_true] at hnode <;>
          simp only [slot?, reduceCtorEq] at ha hb
        rw [(Var.same_iff_index hb).1 (Var.same_symm hnode)] at ha
        cases ha
    have hargs' : b.args = [] := by
      rw [← List.length_eq_zero_iff, ← length_args_of_sameNode hnode, hargs, List.length_nil]
    rintro (_ | depth)
    · trivial
    · rw [agreeUpTo_succ_image_iff ha hb hplain hplain', hargs, hargs']
      exact ⟨hnode, .nil⟩

end Term

end ClauseResolution
