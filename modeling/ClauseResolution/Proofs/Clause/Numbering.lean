import ClauseResolution.Proofs.Clause.Names
import ClauseResolution.Proofs.Term.Reading

/-!
# What numbering makes of a term

The variables of a term are numbered in the order in which they occur first. Every variable is
replaced by one with its number, the anonymous variable stays as it is, and the count at a
compound term is the number of different slots below it. So a numbered term is the term with its
variables replaced and then counted, whichever numbering goes on from the one that results.
-/

namespace ClauseResolution

/-- The variables of a term that are not anonymous, from left to right. -/
def Term.namedVars (t : Term) : List Var :=
  t.leaves.filterMap fun
    | .var v => if v.isAnonymous then none else some v
    | _ => none

namespace Term

variable {v : Var}

/-- An anonymous variable counts for no named variable. -/
theorem namedVars_anonymous (hv : v.isAnonymous = true) : (var v).namedVars = [] := by
  simp [namedVars, hv]

/-- A named variable is the only one of the term that it is. -/
theorem namedVars_named (hv : v.isAnonymous = false) : (var v).namedVars = [v] := by
  simp [namedVars, hv]

/-- The named variables of a compound term are those of its arguments, in turn. -/
theorem namedVars_compound (functor : String) (args : List Term) (varCount : Nat) :
    (compound functor args varCount).namedVars = args.flatMap namedVars := by
  rw [namedVars, leaves_compound, List.filterMap_flatMap]
  rfl

/-- The named variables of a term are those of its leaves that are not anonymous. -/
theorem mem_namedVars {t : Term} : v ∈ t.namedVars ↔ .var v ∈ t.leaves ∧ v.isAnonymous = false := by
  rw [namedVars, List.mem_filterMap]
  constructor
  · rintro ⟨leaf, hleaf, hv⟩
    cases leaf with
    | var w =>
      cases hw : w.isAnonymous <;> simp [hw] at hv
      exact ⟨hv ▸ hleaf, hv ▸ hw⟩
    | atom | number | compound => cases hv
  · rintro ⟨hleaf, hv⟩
    exact ⟨.var v, hleaf, by simp [hv]⟩

end Term

namespace Numbering

variable {n N : Numbering} {v : Var} {vs : List Var}

/-- The variables that have slots, in slot order. -/
def listed (n : Numbering) : List Var := n.slots.toList

/-- A variable that is listed keeps its slot. -/
theorem slot_of_mem (h : v ∈ n.listed) : n.slot v = (n.listed.idxOf v, n) := by
  obtain ⟨⟨slots⟩⟩ := n
  cases hindex : slots.idxOf? v with
  | none => exact absurd h (List.idxOf?_eq_none_iff.1 hindex)
  | some i =>
    simp only [slot, List.idxOf?_toArray, hindex, listed, List.idxOf_eq_getD_idxOf?,
      Option.getD_some]

/-- A variable that is not listed gets the next slot. -/
theorem slot_of_not_mem (h : v ∉ n.listed) : n.slot v = (n.listed.length, ⟨n.slots.push v⟩) := by
  obtain ⟨⟨slots⟩⟩ := n
  have hindex : slots.idxOf? v = none := List.idxOf?_eq_none_iff.2 h
  simp only [slot, List.idxOf?_toArray, hindex, listed]
  rfl

/-- A new variable comes last. -/
theorem listed_slot (n : Numbering) (v : Var) :
    (n.slot v).2.listed = if v ∈ n.listed then n.listed else n.listed ++ [v] := by
  split
  · next h => rw [slot_of_mem h]
  · next h =>
    rw [slot_of_not_mem h]
    exact Array.toList_push

/-- The slot of a variable is its place. -/
theorem fst_slot (n : Numbering) (v : Var) : (n.slot v).1 = (n.slot v).2.listed.idxOf v := by
  by_cases h : v ∈ n.listed
  · rw [slot_of_mem h]
  · rw [listed_slot, if_neg h, slot_of_not_mem h, List.idxOf_append_of_notMem h]
    simp

/-- The numbering that goes on with some variables. -/
def after (n : Numbering) (vs : List Var) : Numbering := vs.foldl (fun n v => (n.slot v).2) n

/-- The first variable is numbered before the others. -/
theorem after_cons (n : Numbering) (v : Var) (vs : List Var) :
    n.after (v :: vs) = (n.slot v).2.after vs := rfl

/-- Variables are numbered one after the other. -/
theorem after_append (n : Numbering) (vs ws : List Var) :
    n.after (vs ++ ws) = (n.after vs).after ws := List.foldl_append ..

/-- The variables that have slots keep them. -/
theorem prefix_after (n : Numbering) (vs : List Var) : n.listed <+: (n.after vs).listed := by
  induction vs generalizing n with
  | nil => exact List.prefix_rfl
  | cons v vs ih =>
    refine List.IsPrefix.trans ?_ (ih (n.slot v).2)
    rw [listed_slot]
    split
    · exact List.prefix_rfl
    · exact List.prefix_append ..

/-- Afterwards the variables are listed that were before, and those that were numbered. -/
theorem mem_after : v ∈ (n.after vs).listed ↔ v ∈ n.listed ∨ v ∈ vs := by
  induction vs generalizing n with
  | nil => simp [after]
  | cons w vs ih =>
    rw [after_cons, ih, listed_slot]
    split <;> grind

/-- No variable has two slots. -/
theorem nodup_after (h : n.listed.Nodup) (vs : List Var) : (n.after vs).listed.Nodup := by
  induction vs generalizing n with
  | nil => exact h
  | cons v vs ih =>
    refine ih ?_
    rw [listed_slot]
    split
    · exact h
    · next hv => exact List.nodup_append.2 ⟨h, by simp, by grind⟩

/-- Among some of the variables the order is the same. -/
theorem filter_after {n' : Numbering} {p : Var → Bool} (h : n.listed = n'.listed.filter p)
    (vs : List Var) : (n.after (vs.filter p)).listed = (n'.after vs).listed.filter p := by
  induction vs generalizing n n' with
  | nil => exact h
  | cons v vs ih =>
    cases hv : p v with
    | true =>
      rw [List.filter_cons_of_pos hv]
      refine ih ?_
      have hmem : v ∈ n.listed ↔ v ∈ n'.listed := by simp [h, hv]
      rw [listed_slot, listed_slot, apply_ite (List.filter p), List.filter_append, ← h]
      simp [hmem, hv]
    | false =>
      rw [List.filter_cons_of_neg (by simp [hv])]
      refine ih ?_
      rw [listed_slot, apply_ite (List.filter p), List.filter_append, ← h]
      simp [hv]

/-- Numbering arguments goes on with their variables. -/
theorem visitAll_snd {ts : List Term}
    (h : ∀ t ∈ ts, ∀ n, (visitor.visit t n).2 = n.after t.namedVars) (n : Numbering) :
    (visitor.visitAll ts n).2 = n.after (ts.flatMap Term.namedVars) := by
  induction ts generalizing n with
  | nil => rfl
  | cons t ts ih =>
    obtain ⟨ht, hrest⟩ := List.forall_mem_cons.1 h
    rw [Term.Visitor.visitAll, List.flatMap_cons, after_append, ← ht n, ← ih hrest]

/-- Numbering a term goes on with its variables. -/
theorem visit_snd (t : Term) (n : Numbering) : (visitor.visit t n).2 = n.after t.namedVars := by
  induction t generalizing n with
  | atom name =>
    rw [visit_atom]
    rfl
  | number value =>
    rw [visit_number]
    rfl
  | var v =>
    cases hv : v.isAnonymous with
    | true =>
      rw [visit_anonymous n hv, Term.namedVars_anonymous hv]
      rfl
    | false =>
      rw [visit_named n hv, Term.namedVars_named hv]
      rfl
  | compound functor args varCount ih =>
    rw [visit_compound, Term.namedVars_compound]
    exact visitAll_snd ih n

/-- Merging two lists of slots gives the slots of both. -/
theorem mem_mergeSlots {as bs : List Nat} {i : Nat} :
    i ∈ mergeSlots as bs ↔ i ∈ as ∨ i ∈ bs := by
  fun_induction mergeSlots as bs <;> grind

/-- Increasing lists of slots are merged to one. -/
theorem pairwise_mergeSlots {as bs : List Nat} (ha : as.Pairwise (· < ·))
    (hb : bs.Pairwise (· < ·)) : (mergeSlots as bs).Pairwise (· < ·) := by
  fun_induction mergeSlots as bs with
  | case1 => exact hb
  | case2 => exact ha
  | case3 a as b bs hlt ih | case4 a as b bs hlt hgt ih | case5 a as b bs hlt hgt ih =>
    rw [List.pairwise_cons] at ha hb
    refine List.pairwise_cons.2 ⟨fun i hi => ?_, ih (by simp_all) (by simp_all)⟩
    rw [mem_mergeSlots] at hi
    grind

/-- A variable is replaced by one with its slot. -/
def place (N : Numbering) (v : Var) : Var :=
  if v.isAnonymous then .anonymous else ⟨v.name, some (N.listed.idxOf v)⟩

/-- An anonymous variable is placed without a slot. -/
theorem place_anonymous (hv : v.isAnonymous = true) : N.place v = .anonymous := if_pos hv

/-- A named variable is placed at its slot in the list. -/
theorem place_named (hv : v.isAnonymous = false) :
    N.place v = ⟨v.name, some (N.listed.idxOf v)⟩ := by simp [place, hv]

/-- The term with slots for its variables. -/
def numbered (N : Numbering) (t : Term) : Term := (t.mapVars N.place).recount

/-- The slots of a numbered term, from left to right. -/
theorem slots_numbered (N : Numbering) (t : Term) :
    (N.numbered t).slots = t.namedVars.map N.listed.idxOf := by
  rw [numbered, Term.slots_recount, Term.slots, Term.leaves_mapVars, Term.namedVars,
    List.filterMap_map, List.map_filterMap]
  refine List.filterMap_congr fun leaf _ => ?_
  cases leaf with
  | atom | number | compound => rfl
  | var v =>
    cases hv : v.isAnonymous with
    | true => simp [place_anonymous hv, Term.slot?, Var.anonymous, hv]
    | false => simp [place_named hv, Term.slot?, hv]

/-- The slots that are collected with a term are its own, in increasing order. -/
structure Collects (value : Term × List Nat) : Prop where
  /-- The slots increase. -/
  sorted : value.2.Pairwise (· < ·)
  /-- They are those of the term. -/
  mem : ∀ i, i ∈ value.2 ↔ i ∈ value.1.slots

/-- There are as many slots as different ones in the term. -/
theorem Collects.length {value : Term × List Nat} (h : Collects value) :
    value.2.length = value.1.slots.dedup.length := by
  refine ((List.perm_ext_iff_of_nodup ?_ (List.nodup_dedup _)).2 fun i => ?_).length_eq
  · exact h.sorted.imp fun hlt => Nat.ne_of_lt hlt
  · rw [List.mem_dedup, h.mem]

/-- The slots that are collected with arguments are merged. -/
theorem foldl_mergeSlots {values : List (Term × List Nat)} {collected : List Nat}
    (h : ∀ value ∈ values, Collects value) (hcollected : collected.Pairwise (· < ·)) :
    (values.foldl (fun slots value => mergeSlots slots value.2) collected).Pairwise (· < ·) ∧
      ∀ i, i ∈ values.foldl (fun slots value => mergeSlots slots value.2) collected ↔
        i ∈ collected ∨ i ∈ (values.map Prod.fst).flatMap Term.slots := by
  induction values generalizing collected with
  | nil => exact ⟨hcollected, by simp⟩
  | cons value values ih =>
    obtain ⟨hvalue, hrest⟩ := List.forall_mem_cons.1 h
    obtain ⟨hsorted, hmem⟩ := ih hrest (pairwise_mergeSlots hcollected hvalue.sorted)
    refine ⟨hsorted, fun i => ?_⟩
    rw [List.foldl_cons, hmem, mem_mergeSlots, hvalue.mem, List.map_cons, List.flatMap_cons,
      List.mem_append, or_assoc]

/-- Numbering some terms goes on with what results to any numbering. -/
theorem visitAll_collects {ts : List Term}
    (h : ∀ t ∈ ts, ∀ n, (visitor.visit t n).2.listed <+: N.listed →
      (visitor.visit t n).1.1 = N.numbered t ∧ Collects (visitor.visit t n).1)
    (hN : (visitor.visitAll ts n).2.listed <+: N.listed) :
    (visitor.visitAll ts n).1.map Prod.fst = ts.map N.numbered ∧
      ∀ value ∈ (visitor.visitAll ts n).1, Collects value := by
  induction ts generalizing n with
  | nil => exact ⟨rfl, List.forall_mem_nil _⟩
  | cons t ts ih =>
    obtain ⟨ht, hrest⟩ := List.forall_mem_cons.1 h
    rw [Term.Visitor.visitAll] at hN ⊢
    have hfirst : (visitor.visit t n).2.listed <+: N.listed := by
      refine List.IsPrefix.trans ?_ hN
      dsimp only
      rw [visitAll_snd fun t _ n => visit_snd t n]
      exact prefix_after ..
    obtain ⟨hterm, hcollects⟩ := ht n hfirst
    obtain ⟨hterms, hcollected⟩ := ih hrest hN
    exact ⟨by rw [List.map_cons, List.map_cons, hterm, hterms],
      List.forall_mem_cons.2 ⟨hcollects, hcollected⟩⟩

/-- A numbered term is the term with its variables replaced and counted. -/
theorem visit_collects (t : Term) (hN : (visitor.visit t n).2.listed <+: N.listed) :
    (visitor.visit t n).1.1 = N.numbered t ∧ Collects (visitor.visit t n).1 := by
  induction t generalizing n with
  | atom name =>
    rw [visit_atom]
    exact ⟨rfl, .nil, by simp⟩
  | number value =>
    rw [visit_number]
    exact ⟨rfl, .nil, by simp⟩
  | var v =>
    cases hv : v.isAnonymous with
    | true =>
      rw [visit_anonymous n hv, numbered, Term.mapVars_var, place_anonymous hv]
      exact ⟨rfl, .nil, by simp [Var.anonymous]⟩
    | false =>
      have hmem : v ∈ (n.slot v).2.listed := by
        rw [listed_slot]
        split <;> simp [*]
      rw [visit_named n hv] at hN ⊢
      obtain ⟨more, hmore⟩ := hN
      refine ⟨?_, by simp, by simp [eq_comm]⟩
      rw [numbered, Term.mapVars_var, place_named hv, fst_slot, ← hmore,
        List.idxOf_append_of_mem hmem]
      rfl
  | compound functor args varCount ih =>
    rw [visit_compound] at hN ⊢
    obtain ⟨hterms, hcollected⟩ := visitAll_collects (fun t ht n => ih t ht) hN
    obtain ⟨hsorted, hmem⟩ := foldl_mergeSlots hcollected .nil
    have hcollects : Collects (.compound functor ((visitor.visitAll args n).1.map Prod.fst)
        ((visitor.visitAll args n).1.foldl (fun slots value => mergeSlots slots value.2) []).length,
        (visitor.visitAll args n).1.foldl (fun slots value => mergeSlots slots value.2) []) :=
      ⟨hsorted, fun i => by rw [hmem, Term.slots_compound]; simp⟩
    refine ⟨?_, hcollects⟩
    have hlength := hcollects.length
    dsimp only at hlength ⊢
    rw [hlength, Term.slots_compound, hterms, numbered, Term.mapVars_compound,
      Term.recount_compound, List.map_map]
    rfl

/-- A term is numbered by replacing its variables and counting them, with the slots of any
numbering that goes on from the one that results. -/
theorem number_eq (t : Term) (hN : (n.after t.namedVars).listed <+: N.listed) :
    (n.number t).1 = N.numbered t := by
  rw [← visit_snd] at hN
  rw [number, Term.fold_eq_visit]
  exact (visit_collects t hN).1

/-- Numbering a term numbers its named variables in reading order. -/
theorem number_snd (t : Term) (n : Numbering) : (n.number t).2 = n.after t.namedVars := by
  rw [number, Term.fold_eq_visit]
  exact visit_snd t n

end Numbering

end ClauseResolution
