import ClauseResolution.Proofs.Clause.Instance
import ClauseResolution.Proofs.Term.Names
import Mathlib.Data.Set.Function

/-!
# Normalization does not look at names

Normalization tells variables apart by their names and then goes by slots. So when the
variables of a term get other names, different ones for different names and none to or
from the anonymous one, the normalized term is the same up to names. A clause made of such
terms is the same up to names as well, and so are its fresh instances.
-/

namespace ClauseResolution

/-- The names of the variables of a term. -/
def Term.names (t : Term) : Set String := {name | ∃ v, .var v ∈ t.leaves ∧ v.name = name}

/-- The variable under another name. -/
def Var.renamed (f : String → String) (v : Var) : Var := ⟨f v.name, v.index⟩

/-- The term with other names for its variables. -/
def Term.renamed (f : String → String) (t : Term) : Term := t.mapVars (Var.renamed f)

/-- Variables with names from a set get other names: different names stay different, and
the anonymous variable keeps its own. -/
structure Renames (f : String → String) (names : Set String) : Prop where
  /-- The anonymous variable stays anonymous. -/
  anonymous : f Var.anonymousName = Var.anonymousName
  /-- Different names stay different, also from the anonymous one. -/
  injOn : Set.InjOn f (insert Var.anonymousName names)

namespace Renames

variable {f : String → String} {names : Set String} {v w : Var}

/-- Only the anonymous variable is renamed to the anonymous one. -/
theorem eq_anonymousName_iff (h : Renames f names) {name : String} (hname : name ∈ names) :
    f name = Var.anonymousName ↔ name = Var.anonymousName := by
  constructor
  · intro heq
    rw [← h.anonymous] at heq
    exact h.injOn (Set.mem_insert_of_mem _ hname) (Set.mem_insert _ _) heq
  · rintro rfl
    exact h.anonymous

/-- A renaming keeps apart anonymous and named variables. -/
theorem isAnonymous_renamed (h : Renames f names) (hv : v.name ∈ names) :
    (v.renamed f).isAnonymous = v.isAnonymous := by
  rw [Bool.eq_iff_iff, Var.isAnonymous, Var.isAnonymous, beq_iff_eq, beq_iff_eq]
  exact h.eq_anonymousName_iff hv

/-- Renaming does not show once names are hidden. -/
theorem hiddenName_eq (h : Renames f names) {name : String} (hname : name ∈ names) :
    Var.hiddenName (f name) = Var.hiddenName name := by
  by_cases hanonymous : name = Var.anonymousName
  · rw [hanonymous, h.anonymous]
  · have hkept := mt (h.eq_anonymousName_iff hname).1 hanonymous
    rw [Var.hiddenName, Var.hiddenName, if_neg hkept, if_neg hanonymous]

/-- Different variables are renamed to different ones. -/
theorem eq_of_renamed_eq (h : Renames f names) (hv : v.name ∈ names) (hw : w.name ∈ names)
    (heq : v.renamed f = w.renamed f) : v = w := by
  obtain ⟨hname, hindex⟩ : f v.name = f w.name ∧ v.index = w.index := by
    simpa [Var.renamed] using heq
  have hnames := h.injOn (Set.mem_insert_of_mem _ hv) (Set.mem_insert_of_mem _ hw) hname
  obtain ⟨name, index⟩ := v
  obtain ⟨name', index'⟩ := w
  simp_all

end Renames

namespace Term

variable {f : String → String}

/-- Renaming goes through to the arguments of a compound term. -/
@[simp] theorem renamed_compound (functor : String) (args : List Term) (varCount : Nat) :
    (compound functor args varCount).renamed f =
      .compound functor (args.map (renamed f)) varCount :=
  mapVars_compound functor args varCount

/-- The name of a variable is among the names of the term that it is. -/
theorem mem_names_var (v : Var) : v.name ∈ (var v).names := ⟨v, by simp, rfl⟩

/-- The names of an argument are names of the term. -/
theorem names_subset_of_mem {functor : String} {args : List Term} {varCount : Nat} {t : Term}
    (ht : t ∈ args) : t.names ⊆ (compound functor args varCount).names := by
  rintro name ⟨v, hv, rfl⟩
  refine ⟨v, ?_, rfl⟩
  rw [leaves_compound]
  exact List.mem_flatMap.2 ⟨t, ht, hv⟩

end Term

namespace Numbering

variable {f : String → String} {names : Set String} {n : Numbering}

/-- The numbering of the variables under other names. -/
def renamed (f : String → String) (n : Numbering) : Numbering := ⟨n.slots.map (Var.renamed f)⟩

/-- The names of the numbered variables are from a set. -/
def NamesIn (n : Numbering) (names : Set String) : Prop := ∀ v ∈ n.slots, v.name ∈ names

/-- A variable has the same slot under another name. -/
theorem slot_renamed (hf : Renames f names) (hn : n.NamesIn names) {v : Var}
    (hv : v.name ∈ names) :
    (n.renamed f).slot (v.renamed f) = ((n.slot v).1, (n.slot v).2.renamed f) := by
  have hindex : (n.slots.map (Var.renamed f)).idxOf? (v.renamed f) = n.slots.idxOf? v := by
    obtain ⟨⟨slots⟩⟩ := n
    simp only [NamesIn, List.mem_toArray, List.map_toArray, List.idxOf?_toArray] at hn ⊢
    induction slots with
    | nil => rfl
    | cons w slots ih =>
      obtain ⟨hw, hrest⟩ := List.forall_mem_cons.1 hn
      have hsame : (w.renamed f == v.renamed f) = (w == v) := by
        rw [Bool.eq_iff_iff, beq_iff_eq, beq_iff_eq]
        exact ⟨hf.eq_of_renamed_eq hw hv, congrArg _⟩
      rw [List.map_cons, List.idxOf?_cons, List.idxOf?_cons, hsame, ih hrest]
  rw [slot, slot, renamed, hindex]
  cases n.slots.idxOf? v with
  | some i => rfl
  | none => simp [renamed]

/-- Giving a slot to a variable with one of the names brings in no other name. -/
theorem slot_namesIn (hn : n.NamesIn names) {v : Var} (hv : v.name ∈ names) :
    (n.slot v).2.NamesIn names := by
  rw [slot]
  cases n.slots.idxOf? v with
  | some i => exact hn
  | none =>
    intro w hw
    rcases Array.mem_push.1 hw with hw | rfl
    · exact hn w hw
    · exact hv

/-- The value of a fold, without names. -/
def unnamedValue (value : Term × List Nat) : Term × List Nat := (value.1.unnamed, value.2)

/-- Numbering a term under other names gives the same term up to names, and goes on with
the numbering under other names. -/
structure Follows (f : String → String) (names : Set String) (t : Term) (n : Numbering) :
    Prop where
  /-- The value is the same up to names. -/
  value : unnamedValue (visitor.visit (t.renamed f) (n.renamed f)).1 =
    unnamedValue (visitor.visit t n).1
  /-- The numbering is the same under other names. -/
  state : (visitor.visit (t.renamed f) (n.renamed f)).2 = (visitor.visit t n).2.renamed f
  /-- No other names come in. -/
  namesIn : (visitor.visit t n).2.NamesIn names

/-- The same for a list of arguments, one after the other. -/
theorem visitAll_follows {ts : List Term}
    (h : ∀ t ∈ ts, ∀ n : Numbering, n.NamesIn names → Follows f names t n)
    (hn : n.NamesIn names) :
    (visitor.visitAll (ts.map (Term.renamed f)) (n.renamed f)).1.map unnamedValue =
        (visitor.visitAll ts n).1.map unnamedValue ∧
      (visitor.visitAll (ts.map (Term.renamed f)) (n.renamed f)).2 =
        (visitor.visitAll ts n).2.renamed f ∧
      (visitor.visitAll ts n).2.NamesIn names := by
  induction ts generalizing n with
  | nil => exact ⟨rfl, rfl, hn⟩
  | cons t ts ih =>
    obtain ⟨hvalue, hstate, hnames⟩ := h t List.mem_cons_self n hn
    obtain ⟨hvalues, hend, hnamesEnd⟩ := ih (fun u hu => h u (List.mem_cons_of_mem _ hu)) hnames
    simp only [List.map_cons, Term.Visitor.visitAll, hstate]
    exact ⟨by rw [hvalue, hvalues], hend, hnamesEnd⟩

/-- Which slots lie below a node is a matter of slots. -/
theorem foldl_mergeSlots_unnamedValue (values : List (Term × List Nat)) (collected : List Nat) :
    (values.map unnamedValue).foldl (fun slots value => mergeSlots slots value.2) collected =
      values.foldl (fun slots value => mergeSlots slots value.2) collected := by
  rw [List.foldl_map]
  rfl

/-- Numbering does not look at names. -/
theorem visit_follows {t : Term} (hf : Renames f names) (ht : t.names ⊆ names)
    (hn : n.NamesIn names) : Follows f names t n := by
  induction t generalizing n with
  | atom name =>
    have hself : (Term.atom name).renamed f = .atom name := rfl
    constructor <;> simp [hself, visit_atom, hn]
  | number value =>
    have hself : (Term.number value).renamed f = .number value := rfl
    constructor <;> simp [hself, visit_number, hn]
  | var v =>
    have hv : v.name ∈ names := ht (Term.mem_names_var v)
    have hself : (Term.var v).renamed f = .var (v.renamed f) := rfl
    have hkind := hf.isAnonymous_renamed hv
    cases hanonymous : v.isAnonymous with
    | true =>
      rw [hanonymous] at hkind
      constructor <;> simp [hself, visit_anonymous, hkind, hanonymous, hn]
    | false =>
      rw [hanonymous] at hkind
      have hslot := slot_renamed hf hn hv
      have hhidden := hf.hiddenName_eq hv
      constructor
      · rw [hself, visit_named _ hkind, visit_named _ hanonymous, hslot]
        simp [unnamedValue, Var.unnamed, Var.renamed, hhidden]
      · rw [hself, visit_named _ hkind, visit_named _ hanonymous, hslot]
      · rw [visit_named _ hanonymous]
        exact slot_namesIn hn hv
  | compound functor args varCount ih =>
    obtain ⟨hvalues, hstate, hnames⟩ := visitAll_follows (f := f) (n := n)
      (fun t hmem n hn => ih t hmem ((Term.names_subset_of_mem hmem).trans ht) hn) hn
    have hbelow := congrArg (fun values : List (Term × List Nat) =>
      values.foldl (fun slots value => mergeSlots slots value.2) []) hvalues
    have hterms := congrArg (List.map Prod.fst) hvalues
    simp only [foldl_mergeSlots_unnamedValue] at hbelow
    rw [List.map_map, List.map_map] at hterms
    refine ⟨?_, ?_, ?_⟩
    · rw [Term.renamed_compound, visit_compound, visit_compound, unnamedValue, unnamedValue, hbelow,
        Term.unnamed_compound, Term.unnamed_compound, List.map_map, List.map_map]
      exact congrArg (fun args => (Term.compound functor args _, _)) hterms
    · rw [Term.renamed_compound, visit_compound, visit_compound]
      exact hstate
    · rw [visit_compound]
      exact hnames

/-- A term is numbered in the same way under other names. -/
theorem number_renamed {t : Term} (hf : Renames f names) (ht : t.names ⊆ names)
    (hn : n.NamesIn names) :
    ((n.renamed f).number (t.renamed f)).1.unnamed = (n.number t).1.unnamed ∧
      ((n.renamed f).number (t.renamed f)).2 = (n.number t).2.renamed f ∧
      (n.number t).2.NamesIn names := by
  have hfollows := visit_follows hf ht hn
  rw [number, number, Term.fold_eq_visit, Term.fold_eq_visit]
  exact ⟨(Prod.mk.inj hfollows.value).1, hfollows.state, hfollows.namesIn⟩

/-- A numbering without variables has nothing to rename. -/
theorem renamed_empty (f : String → String) : empty.renamed f = empty := by
  simp [renamed, empty]

/-- A numbering without variables has no names. -/
theorem empty_namesIn (names : Set String) : empty.NamesIn names := by simp [NamesIn, empty]

/-- There are as many slots under other names. -/
theorem length_vars_renamed (f : String → String) (n : Numbering) :
    (n.renamed f).vars.length = n.vars.length := by
  simp [vars, renamed]

/-- The names of the numbered variables, in slot order. -/
def slotNames (n : Numbering) : List String := n.slots.toList.map Var.name

/-- The names of the variables are those of the slots, in their order. -/
theorem map_name_vars (n : Numbering) : n.vars.map Var.name = n.slotNames := by
  have hname : n.vars.map Var.name = n.slots.toList.zipIdx.map (Var.name ∘ Prod.fst) := by
    rw [vars, List.map_map]
    rfl
  rw [hname, ← List.map_map, List.zipIdx_map_fst, slotNames]

/-- What is left of the names does not depend on the names. -/
theorem hiddenNames_renamed (hf : Renames f names) (hn : n.NamesIn names) :
    ((n.renamed f).vars.map Var.name).map Var.hiddenName =
      (n.vars.map Var.name).map Var.hiddenName := by
  rw [map_name_vars, map_name_vars, slotNames, slotNames, renamed, Array.toList_map, List.map_map,
    List.map_map, List.map_map]
  exact List.map_congr_left fun v hv => hf.hiddenName_eq (hn v (Array.mem_toList_iff.1 hv))

/-- A variable gets a slot under its own name, and the others keep their slots. -/
theorem slot_named (n : Numbering) (v : Var) :
    n.slotNames <+: (n.slot v).2.slotNames ∧
      (n.slot v).2.slotNames[(n.slot v).1]? = some v.name := by
  rw [slot]
  cases hindex : n.slots.idxOf? v with
  | some i =>
    rw [Array.idxOf?_eq_map_finIdxOf?_val, Option.map_eq_some_iff] at hindex
    obtain ⟨place, hplace, rfl⟩ := hindex
    obtain ⟨hvalue, _⟩ := Array.finIdxOf?_eq_some_iff.1 hplace
    have hname : n.slots[place.val].name = v.name := congrArg Var.name hvalue
    refine ⟨List.prefix_rfl, ?_⟩
    simp [slotNames, hname]
  | none => simp [slotNames]

/-- Numbering arguments one after the other gives each of them the names of its slots. -/
theorem visitAll_named {ts : List Term}
    (h : ∀ t ∈ ts, ∀ n : Numbering, n.slotNames <+: (visitor.visit t n).2.slotNames ∧
      (visitor.visit t n).1.1.Named (visitor.visit t n).2.slotNames) (n : Numbering) :
    n.slotNames <+: (visitor.visitAll ts n).2.slotNames ∧ ∀ value ∈ (visitor.visitAll ts n).1,
      value.1.Named (visitor.visitAll ts n).2.slotNames := by
  induction ts generalizing n with
  | nil => exact ⟨List.prefix_rfl, by simp [Term.Visitor.visitAll]⟩
  | cons t ts ih =>
    obtain ⟨hfirst, hvalue⟩ := h t List.mem_cons_self n
    obtain ⟨hrest, hvalues⟩ := ih (fun u hu => h u (List.mem_cons_of_mem _ hu))
      (visitor.visit t n).2
    rw [Term.Visitor.visitAll]
    exact ⟨hfirst.trans hrest, List.forall_mem_cons.2 ⟨hvalue.mono hrest, hvalues⟩⟩

/-- Numbering a term keeps the slots that are given, and gives each variable of the term a
slot under its own name. -/
theorem visit_term_named (t : Term) (n : Numbering) :
    n.slotNames <+: (visitor.visit t n).2.slotNames ∧
      (visitor.visit t n).1.1.Named (visitor.visit t n).2.slotNames := by
  induction t generalizing n with
  | atom name =>
    rw [visit_atom]
    exact ⟨List.prefix_rfl, Term.named_atom name⟩
  | number value =>
    rw [visit_number]
    exact ⟨List.prefix_rfl, Term.named_number value⟩
  | var v =>
    cases hv : v.isAnonymous with
    | true =>
      rw [visit_anonymous n hv]
      exact ⟨List.prefix_rfl, Term.named_var.2 (Or.inl rfl)⟩
    | false =>
      obtain ⟨hinit, hname⟩ := n.slot_named v
      rw [visit_named n hv]
      exact ⟨hinit, Term.named_var.2 (Or.inr ⟨_, rfl, hname⟩)⟩
  | compound functor args varCount ih =>
    obtain ⟨hinit, hvalues⟩ := visitAll_named ih n
    rw [visit_compound]
    refine ⟨hinit, Term.named_compound.2 fun t ht => ?_⟩
    obtain ⟨value, hvalue, rfl⟩ := List.mem_map.1 ht
    exact hvalues value hvalue

/-- A callable term stays one when it is numbered, and no other term becomes one. -/
theorem isSome_callable?_number (t : Term) (n : Numbering) :
    (n.number t).1.callable?.isSome = t.isCallable := by
  rw [number, Term.fold_eq_visit]
  cases t with
  | atom name =>
    rw [visit_atom]
    rfl
  | number value =>
    rw [visit_number]
    rfl
  | var v =>
    cases hv : v.isAnonymous with
    | true =>
      rw [visit_anonymous n hv]
      rfl
    | false =>
      rw [visit_named n hv]
      rfl
  | compound functor args varCount =>
    rw [visit_compound]
    rfl

end Numbering

/-- A goal is normalized to the same term up to names under other names, with as many
variables. -/
theorem Term.normalize_renamed {f : String → String} {t : Term} (hf : Renames f t.names) :
    (t.renamed f).normalize.term.unnamed = t.normalize.term.unnamed ∧
      (t.renamed f).normalize.vars.length = t.normalize.vars.length := by
  obtain ⟨hterm, hstate, _⟩ := Numbering.number_renamed hf subset_rfl (Numbering.empty_namesIn _)
  rw [Numbering.renamed_empty] at hterm hstate
  refine ⟨hterm, ?_⟩
  rw [normalize, normalize]
  dsimp only
  rw [hstate, Numbering.length_vars_renamed]

/-- The variables of a normalized goal have the names of their slots. -/
theorem Term.named_normalize (t : Term) :
    t.normalize.term.Named (t.normalize.vars.map Var.name) := by
  have hnamed := (Numbering.visit_term_named t .empty).2
  rw [← fold_eq_visit] at hnamed
  rw [normalize]
  dsimp only
  rw [Numbering.map_name_vars]
  exact hnamed

/-- The parts of a compound term without names. -/
def Compound.unnamed (c : Compound) : Compound :=
  ⟨c.functor, c.args.map Term.unnamed, c.varCount⟩

/-- A head without names is the term of the head without names. -/
theorem Compound.toTerm_unnamed (c : Compound) : c.unnamed.toTerm = c.toTerm.unnamed := by
  rw [toTerm, toTerm, Term.unnamed_compound, unnamed]

/-- The parts of a callable term without names are its parts without names. -/
theorem Term.callable?_unnamed (t : Term) :
    t.unnamed.callable? = t.callable?.map Compound.unnamed := by
  cases t <;> simp [callable?, Compound.unnamed]

namespace Clause

variable {f : String → String} {text : Nat} {head body : Term} {clause clause' : Clause}

/-- The clause without names. -/
def unnamed (clause : Clause) : Clause :=
  ⟨clause.head.unnamed, clause.body.unnamed, clause.varNames.map Var.hiddenName, clause.text⟩

/-- A callable head and a body that is no number make a clause. -/
theorem exists_rule_iff : (∃ clause, rule text head body = .ok clause) ↔
    head.isCallable = true ∧ ∀ value, body ≠ .number value := by
  have hsome := Numbering.isSome_callable?_number head .empty
  constructor
  · rintro ⟨clause, hrule⟩
    unfold rule at hrule
    split at hrule
    · next hhead =>
      refine ⟨hhead, ?_⟩
      rintro value rfl
      cases hrule
    · cases hrule
  · rintro ⟨hhead, hbody⟩
    rw [hhead] at hsome
    obtain ⟨parts, hparts⟩ := Option.isSome_iff_exists.1 hsome
    unfold rule
    rw [if_pos hhead]
    split
    · next value => exact absurd rfl (hbody value)
    · simp only [hparts]
      exact ⟨_, rfl⟩

/-- A clause made of terms under other names is the same clause up to names. -/
theorem unnamed_eq_of_rule (hf : Renames f (head.names ∪ body.names))
    (h : rule text head body = .ok clause)
    (h' : rule text (head.renamed f) (body.renamed f) = .ok clause') :
    clause'.unnamed = clause.unnamed := by
  obtain ⟨hhead, hbody, hnames⟩ := eq_of_rule h
  obtain ⟨hhead', hbody', hnames'⟩ := eq_of_rule h'
  obtain ⟨hterm, hstate, hin⟩ := Numbering.number_renamed (n := .empty) hf
    (Set.subset_union_left (s := head.names) (t := body.names)) (Numbering.empty_namesIn _)
  obtain ⟨hterm', hstate', hin'⟩ := Numbering.number_renamed hf
    (Set.subset_union_right (s := head.names) (t := body.names)) hin
  rw [Numbering.renamed_empty] at hterm hstate
  rw [hstate] at hbody' hnames'
  rw [hstate'] at hnames'
  have hparts : clause'.head.unnamed = clause.head.unnamed := by
    have hcallable := congrArg Term.callable? hterm
    rw [Term.callable?_unnamed, Term.callable?_unnamed, hhead, hhead'] at hcallable
    exact Option.some.inj hcallable
  have hbodies : clause'.body.unnamed = clause.body.unnamed := by rw [← hbody, ← hbody', hterm']
  have hhidden : clause'.varNames.map Var.hiddenName = clause.varNames.map Var.hiddenName := by
    rw [← hnames, ← hnames', Numbering.hiddenNames_renamed hf hin']
  rw [unnamed, unnamed, hparts, hbodies, hhidden, text_of_rule h, text_of_rule h']

/-- One clause is made of the terms of another under other names. Copies of one clause become
copies of one clause. -/
def Renamed (clause clause' : Clause) : Prop :=
  ∃ text head body f, Renames f (head.names ∪ body.names) ∧ rule text head body = .ok clause ∧
    rule text (head.renamed f) (body.renamed f) = .ok clause'

/-- A clause and the renamed one are the same without names. -/
theorem Renamed.unnamed_eq (h : clause.Renamed clause') : clause'.unnamed = clause.unnamed := by
  obtain ⟨text, head, body, f, hf, hrule, hrule'⟩ := h
  exact unnamed_eq_of_rule hf hrule hrule'

/-- A clause that is renamed and the result are both built from terms. -/
theorem Renamed.isBuilt (h : clause.Renamed clause') : clause.IsBuilt ∧ clause'.IsBuilt := by
  obtain ⟨text, head, body, f, _, hrule, hrule'⟩ := h
  exact ⟨⟨text, head, body, hrule⟩, ⟨_, _, _, hrule'⟩⟩

/-- A clause has as many variables without names as with them. -/
@[simp] theorem varCount_unnamed (clause : Clause) : clause.unnamed.varCount = clause.varCount :=
  List.length_map _

/-- A clause is a fact without names if it is one with them. -/
@[simp] theorem isFact_unnamed (clause : Clause) : clause.unnamed.isFact = clause.isFact := by
  rw [isFact, isFact, unnamed]
  cases clause.body with
  | atom | number | var => rfl
  | compound functor args varCount =>
    rw [Term.unnamed_compound]
    rfl

/-- The frame of a clause without names is its frame without names. -/
theorem frame_unnamed (clause : Clause) (base : Nat) :
    clause.unnamed.frame base = (clause.frame base).map Term.unnamed := by
  rw [frame, frame, unnamed, Array.map_map, List.zipIdx_map, List.map_toArray, List.map_toArray,
    List.map_map]
  rfl

end Clause

/-- Putting terms in the place of slots does not look at names. -/
theorem Term.instantiate_unnamed (frame : Array Term) (t : Term) :
    t.unnamed.instantiate (frame.map unnamed) = (t.instantiate frame).unnamed := by
  induction t with
  | atom | number => simp
  | var v =>
    rw [unnamed_var, instantiate_var, instantiate_var, Var.index_unnamed]
    cases v.index with
    | none => rfl
    | some slot =>
      rw [Option.bind_some, Option.bind_some, Array.getElem?_map]
      cases frame[slot]? <;> rfl
  | compound functor args varCount ih =>
    rw [unnamed_compound, instantiate_compound, instantiate_compound, unnamed_compound]
    congr 1
    split
    · rw [List.map_map, List.map_map]
      exact List.map_congr_left ih
    · rfl

namespace Clause

/-- The instance without names. -/
def Instance.unnamed (i : Instance) : Instance := ⟨i.context, i.head.unnamed, i.body.unnamed⟩

/-- A fresh instance is the same up to names. -/
theorem rename_unnamed (clause : Clause) (c : Context) :
    clause.unnamed.rename c = (clause.rename c).unnamed := by
  have hhead : clause.unnamed.head.toTerm = clause.head.toTerm.unnamed := clause.head.toTerm_unnamed
  simp only [rename, fill, varCount_unnamed, hhead, Context.allocate, frame_unnamed,
    Term.instantiate_unnamed]
  have hbody : clause.unnamed.body = clause.body.unnamed := rfl
  rw [hbody, Term.instantiate_unnamed]
  rfl

variable {clause : Clause} {names : List String}

/-- The variable at a slot of the clause has the name of the slot. -/
theorem frame_getElem?_eq {slot : Nat} (clause : Clause) (base : Nat) :
    (clause.frame base)[slot]? =
      clause.varNames[slot]?.map fun name => .var ⟨name, some (base + slot)⟩ := by
  simp [frame, Function.comp_def]

/-- The variables of a renamed term have the names of the clause from the base on. -/
theorem named_instantiate {t : Term} (h : t.Placed clause.varCount) (names : List String) :
    (t.instantiate (clause.frame names.length)).Named (names ++ clause.varNames) := by
  induction t with
  | atom | number => simp [Term.Named]
  | var v =>
    rw [Term.instantiate_var]
    rcases Term.scoped_var.1 h.scope with rfl | ⟨slot, hlt, hslot⟩
    · exact Term.named_var.2 (Or.inl rfl)
    · rw [hslot, Option.bind_some, frame_getElem?_eq, List.getElem?_eq_getElem hlt, Option.map_some,
        Option.getD_some]
      refine Term.named_var.2 (Or.inr ⟨_, rfl, ?_⟩)
      rw [List.getElem?_append_right (Nat.le_add_right _ _), Nat.add_sub_cancel_left,
        List.getElem?_eq_getElem hlt]
  | compound functor args varCount ih =>
    have hscope := Term.scoped_compound.1 h.scope
    obtain ⟨hargs, hcount⟩ :
        (∀ t ∈ args, t.Tallied) ∧ (varCount = 0 → ∀ t ∈ args, t.slots = []) := by
      cases h.tallied with
      | compound hargs hcount => exact ⟨hargs, hcount⟩
    rw [Term.instantiate_compound, Term.named_compound]
    split
    · intro t ht
      obtain ⟨u, hu, rfl⟩ := List.mem_map.1 ht
      exact ih u hu ⟨hscope u hu, hargs u hu⟩
    · intro t ht
      exact (hscope t ht).named_of_slots_eq_nil (hcount (by omega) t ht)

end Clause

end ClauseResolution
