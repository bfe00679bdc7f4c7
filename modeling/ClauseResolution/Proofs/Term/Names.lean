import ClauseResolution.Proofs.Term.Same
import ClauseResolution.Proofs.Term.Scope
import ClauseResolution.Term.Occurrence
import Mathlib.Data.List.Infix

/-!
# Terms without the names of their variables

A variable with a slot has its name for display only. A term without these names keeps
everything else: its nodes, the slots, the anonymous variable, and the names of variables
that have no slot. Two terms are equal up to names when they are equal without them, and
such terms are the same unless they contain a number that is not a number. Nothing is lost
where every slot has but one name.
-/

namespace ClauseResolution

/-- What is left of the name of a variable with a slot: whether it is the anonymous one. -/
def Var.hiddenName (name : String) : String := if name = anonymousName then name else ""

/-- The variable without its name. A variable without a slot keeps the name. -/
def Var.unnamed (v : Var) : Var :=
  match v.index with
  | none => v
  | some slot => ⟨hiddenName v.name, some slot⟩

namespace Var

variable {v w : Var}

/-- A variable keeps its slot without its name. -/
@[simp] theorem index_unnamed (v : Var) : v.unnamed.index = v.index := by
  rw [unnamed]
  split
  · rfl
  · next slot h => exact h.symm

/-- Hiding a name does not change whether a variable is anonymous. -/
@[simp] theorem isAnonymous_unnamed (v : Var) : v.unnamed.isAnonymous = v.isAnonymous := by
  rw [unnamed]
  split
  · rfl
  · rw [isAnonymous, isAnonymous, hiddenName]
    split
    · rfl
    · next h => simpa [anonymousName] using h

/-- A variable without a slot keeps its name. -/
theorem unnamed_of_index_eq_none (h : v.index = none) : v.unnamed = v := by
  rw [unnamed, h]

/-- Without names the same variables are the same. -/
@[simp] theorem same_unnamed (v w : Var) : v.unnamed.same w.unnamed = v.same w := by
  cases hv : v.index <;> cases hw : w.index <;>
    simp [same, hv, hw, unnamed_of_index_eq_none]

end Var

mutual

/-- The term with other variables in the place of its own. -/
def Term.mapVars (f : Var → Var) : Term → Term
  | .var v => .var (f v)
  | .compound functor args varCount => .compound functor (Term.mapVarsAll f args) varCount
  | t => t

/-- The terms of a list with other variables in the place of their own. -/
def Term.mapVarsAll (f : Var → Var) : List Term → List Term
  | [] => []
  | t :: ts => t.mapVars f :: Term.mapVarsAll f ts

end

namespace Term

variable {f : Var → Var} {t u : Term}

/-- Variables are replaced in terms one by one. -/
theorem mapVarsAll_eq_map (ts : List Term) : mapVarsAll f ts = ts.map (mapVars f) := by
  induction ts with
  | nil => rfl
  | cons t ts ih => rw [mapVarsAll, ih, List.map_cons]

/-- An atom has no variables to replace. -/
@[simp] theorem mapVars_atom (name : String) : (atom name).mapVars f = .atom name := rfl

/-- A number has no variables to replace. -/
@[simp] theorem mapVars_number (value : Number) : (number value).mapVars f = .number value := rfl

/-- A term that is a variable is replaced by the new variable. -/
@[simp] theorem mapVars_var (v : Var) : (var v).mapVars f = .var (f v) := rfl

/-- Variables in a compound term are replaced in its arguments. -/
@[simp] theorem mapVars_compound (functor : String) (args : List Term) (varCount : Nat) :
    (compound functor args varCount).mapVars f =
      .compound functor (args.map (mapVars f)) varCount := by
  rw [mapVars, mapVarsAll_eq_map]

/-- Variables can be replaced before or after the arguments are taken. -/
@[simp] theorem args_mapVars (t : Term) : (t.mapVars f).args = t.args.map (mapVars f) := by
  cases t <;> simp [args]

/-- The leaves stay in their places. -/
theorem leaves_mapVars (t : Term) : (t.mapVars f).leaves = t.leaves.map (mapVars f) := by
  induction t with
  | atom | number | var => rfl
  | compound functor args varCount ih =>
    rw [mapVars_compound, leaves_compound, leaves_compound, List.flatMap_map, List.map_flatMap]
    exact List.flatMap_congr ih

/-- Every variable of the result has come from one of the term. -/
theorem exists_of_mem_leaves_mapVars {w : Var} (h : .var w ∈ (t.mapVars f).leaves) :
    ∃ v, .var v ∈ t.leaves ∧ f v = w := by
  rw [leaves_mapVars] at h
  obtain ⟨leaf, hleaf, heq⟩ := List.mem_map.1 h
  cases leaf with
  | var v => exact ⟨v, hleaf, var.inj heq⟩
  | atom | number | compound => simp at heq

/-- Only the variables of the term matter. -/
theorem mapVars_congr {g : Var → Var} (h : ∀ v, .var v ∈ t.leaves → f v = g v) :
    t.mapVars f = t.mapVars g := by
  induction t with
  | atom | number => rfl
  | var v => rw [mapVars_var, mapVars_var, h v (by simp)]
  | compound functor args varCount ih =>
    rw [mapVars_compound, mapVars_compound]
    congr 1
    refine List.map_congr_left fun t ht => ih t ht fun v hv => h v ?_
    rw [leaves_compound]
    exact List.mem_flatMap.2 ⟨t, ht, hv⟩

/-- Replacing variables twice. -/
theorem mapVars_mapVars (f g : Var → Var) (t : Term) :
    (t.mapVars g).mapVars f = t.mapVars (f ∘ g) := by
  induction t with
  | atom | number | var => rfl
  | compound functor args varCount ih =>
    rw [mapVars_compound, mapVars_compound, mapVars_compound, List.map_map]
    congr 1
    exact List.map_congr_left ih

/-- Other variables leave as many nodes. -/
theorem countNodes_mapVars (counted : Nat) (ts : List Term) :
    countNodes counted (ts.map (mapVars f)) = countNodes counted ts := by
  fun_induction countNodes counted ts with
  | case1 => rw [List.map_nil, countNodes]
  | case2 counted t ts ih =>
    rw [List.map_append] at ih
    rw [List.map_cons, countNodes, args_mapVars, ih]

/-- Replacing variables by variables does not change the number of nodes. -/
@[simp] theorem size_mapVars (t : Term) : (t.mapVars f).size = t.size :=
  countNodes_mapVars 0 [t]

/-- The term without the names of the variables that have slots. -/
def unnamed (t : Term) : Term := t.mapVars Var.unnamed

/-- An atom has no names to hide. -/
@[simp] theorem unnamed_atom (name : String) : (atom name).unnamed = .atom name := rfl

/-- A number has no names to hide. -/
@[simp] theorem unnamed_number (value : Number) : (number value).unnamed = .number value := rfl

/-- A term that is a variable loses the name of the variable. -/
@[simp] theorem unnamed_var (v : Var) : (var v).unnamed = .var v.unnamed := rfl

/-- Names in a compound term are hidden in its arguments. -/
@[simp] theorem unnamed_compound (functor : String) (args : List Term) (varCount : Nat) :
    (compound functor args varCount).unnamed =
      .compound functor (args.map unnamed) varCount :=
  mapVars_compound functor args varCount

/-- Names can be hidden before or after the arguments are taken. -/
@[simp] theorem args_unnamed (t : Term) : t.unnamed.args = t.args.map unnamed := args_mapVars t

/-- A term has as many nodes without names as with them. -/
@[simp] theorem size_unnamed (t : Term) : t.unnamed.size = t.size := size_mapVars t

/-- A term has the same slots without names. -/
@[simp] theorem slots_unnamed (t : Term) : t.unnamed.slots = t.slots := by
  rw [slots, slots, unnamed, leaves_mapVars, List.filterMap_map]
  refine List.filterMap_congr fun leaf _ => ?_
  cases leaf with
  | var v => exact Var.index_unnamed v
  | atom | number | compound => rfl

/-- A glance at two terms does not look at names. -/
@[simp] theorem sameConstant_unnamed (t u : Term) :
    t.unnamed.sameConstant u.unnamed = t.sameConstant u := by
  cases t <;> cases u <;> simp [sameConstant]

/-- Terms that are equal up to names are the same, unless they contain a number that is
not a number. -/
theorem same_of_unnamed_eq (h : t.unnamed = u.unnamed) (ht : t.isNaNFree) : t.same u := by
  induction t generalizing u with
  | atom | number =>
    cases u <;> simp at h
    subst h
    exact same_self ht
  | var v =>
    cases u <;> simp at h
    rw [same_var, ← Var.same_unnamed, h]
    exact Var.same_self _
  | compound functor args varCount ih =>
    cases u <;> simp at h
    next functor' args' varCount' =>
    obtain ⟨rfl, hargs, rfl⟩ := h
    rw [isNaNFree_compound] at ht
    have hpairs : List.Forall₂ (fun a b => a.unnamed = b.unnamed) args args' := by
      have hequal : List.Forall₂ Eq (args.map unnamed) (args'.map unnamed) := by
        rw [hargs, List.forall₂_eq_eq_eq]
      rwa [List.forall₂_map_left_iff, List.forall₂_map_right_iff] at hequal
    have hall := (List.forall₂_and_left _ _).2 ⟨fun a ha => And.intro (@ih a ha) (ht a ha), hpairs⟩
    refine same_compound.2 ⟨rfl, hall.imp fun a b hab => ?_⟩
    exact hab.1.1 hab.2 hab.1.2

/-- Every variable is the anonymous one, or has a slot and the name that a list gives to
the slot. -/
def Named (names : List String) (t : Term) : Prop :=
  ∀ v, .var v ∈ t.leaves → v = .anonymous ∨
    ∃ slot, v.index = some slot ∧ names[slot]? = some v.name

variable {names names' : List String}

/-- An atom has no names to be told. -/
theorem named_atom (name : String) : (atom name).Named names := by simp [Named]

/-- A number has no names to be told. -/
theorem named_number (value : Number) : (number value).Named names := by simp [Named]

/-- A variable is named by a list when it is anonymous or bears the name at its slot. -/
theorem named_var {v : Var} : (var v).Named names ↔
    v = .anonymous ∨ ∃ slot, v.index = some slot ∧ names[slot]? = some v.name := by
  simp [Named]

/-- A compound term is named by a list when its arguments are. -/
theorem named_compound {functor : String} {args : List Term} {varCount : Nat} :
    (compound functor args varCount).Named names ↔ ∀ t ∈ args, t.Named names := by
  simp only [Named, leaves_compound, List.mem_flatMap]
  constructor
  · exact fun h t ht v hv => h v ⟨t, ht, hv⟩
  · rintro h v ⟨t, ht, hv⟩
    exact h t ht v hv

/-- More slots may get names. -/
theorem Named.mono (h : t.Named names) (hinit : names <+: names') : t.Named names' := by
  intro v hv
  rcases h v hv with rfl | ⟨slot, hslot, hname⟩
  · exact Or.inl rfl
  · obtain ⟨more, rfl⟩ := hinit
    refine Or.inr ⟨slot, hslot, ?_⟩
    rwa [List.getElem?_append_left (List.getElem?_eq_some_iff.1 hname).1]

/-- The arguments of a term have the names of its slots. -/
theorem Named.of_mem_args (h : u.Named names) (ht : t ∈ u.args) : t.Named names := by
  cases u with
  | compound functor as count => exact named_compound.1 h t ht
  | atom | number | var => simp [args] at ht

/-- A term without slots has no variable but the anonymous one. -/
theorem Scoped.named_of_slots_eq_nil {top : Nat} (h : t.Scoped top) (hslots : t.slots = []) :
    t.Named names := by
  intro v hv
  rcases h.fresh_of_slots_eq_nil hslots 0 0 v hv with rfl | ⟨slot, _, hlt, _⟩
  · exact Or.inl rfl
  · omega

/-- The term with the names that a list gives to its slots. -/
def withNames (names : List String) (t : Term) : Term :=
  t.mapVars fun v => match v.index with
    | none => v
    | some slot => ⟨(names[slot]?).getD v.name, some slot⟩

/-- The names can be put back. -/
theorem Named.withNames_unnamed (h : t.Named names) : t.unnamed.withNames names = t := by
  induction t with
  | atom | number => rfl
  | var v =>
    rcases named_var.1 h with rfl | ⟨slot, hslot, hname⟩
    · rfl
    · rw [unnamed_var, withNames, mapVars_var, Var.index_unnamed, hslot]
      simp only [hname, Option.getD_some, ← hslot]
  | compound functor args varCount ih =>
    rw [named_compound] at h
    rw [unnamed_compound, withNames, mapVars_compound, List.map_map]
    congr 1
    exact (List.map_congr_left fun t ht => ih t ht (h t ht)).trans (List.map_id args)

/-- Where every slot has but one name, terms that are equal up to names are equal. -/
theorem Named.eq_of_unnamed_eq (ht : t.Named names) (hu : u.Named names)
    (h : t.unnamed = u.unnamed) : t = u := by
  rw [← ht.withNames_unnamed, h, hu.withNames_unnamed]

end Term

namespace Occurrence

/-- The term without names where it stands. -/
def unnamed (o : Occurrence) : Occurrence := ⟨o.text, o.node, o.term.unnamed⟩

/-- The term of an occurrence without names is its term without names. -/
@[simp] theorem term_unnamed (o : Occurrence) : o.unnamed.term = o.term.unnamed := rfl

/-- Hiding names does not change whether an occurrence is a variable. -/
@[simp] theorem isVar_unnamed (o : Occurrence) : o.unnamed.isVar = o.isVar := by
  obtain ⟨text, node, term⟩ := o
  cases term <;> rfl

/-- Other terms with as many nodes stand where the terms stand. -/
theorem series_map {f : Term → Term} (hf : ∀ t, (f t).size = t.size) (text node : Nat)
    (ts : List Term) : series text node (ts.map f) =
      (series text node ts).map fun o => ⟨o.text, o.node, f o.term⟩ := by
  fun_induction series text node ts with
  | case1 => rfl
  | case2 => rfl
  | case3 node t ts hne ih =>
    obtain ⟨u, us, rfl⟩ := List.exists_cons_of_ne_nil hne
    rw [List.map_cons, List.map_cons, series, hf, ← List.map_cons, ih]
    · rfl
    · simp

/-- The arguments without names stand where the arguments stand. -/
@[simp] theorem args_unnamed (o : Occurrence) : o.unnamed.args = o.args.map unnamed := by
  rw [args, args, term_unnamed, Term.args_unnamed]
  exact series_map Term.size_unnamed ..

/-- Where every slot has but one name, occurrences that are equal up to names are equal. -/
theorem eq_of_unnamed_eq {names : List String} {o p : Occurrence} (ho : o.term.Named names)
    (hp : p.term.Named names) (h : o.unnamed = p.unnamed) : o = p := by
  obtain ⟨text, node, t⟩ := o
  obtain ⟨text', node', u⟩ := p
  obtain ⟨rfl, rfl, hterm⟩ : text = text' ∧ node = node' ∧ t.unnamed = u.unnamed := by
    simpa [unnamed] using h
  obtain rfl : t = u := ho.eq_of_unnamed_eq hp hterm
  rfl

end Occurrence

end ClauseResolution
