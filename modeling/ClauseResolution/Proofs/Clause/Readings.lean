import ClauseResolution.Proofs.Clause.Filling

/-!
# Instances with variables for the gaps

A clause with new variables for the anonymous one and the clause without are renamed alike: the
slots that are allocated for the one are read as those that are allocated for the other, or they
are gaps. So the instances are read as each other, and each gap still stands in one place.
-/

namespace ClauseResolution

namespace Reading

variable {r q : Reading} {top count i j : Nat}

/-- What the slots of a clause are read as when they are moved to a top. -/
def shift (q : Reading) (top : Nat) : Reading := q.map (Option.map (top + ·))

/-- A reading has as many entries when it is shifted. -/
@[simp] theorem length_shift (q : Reading) (top : Nat) : (q.shift top).length = q.length :=
  List.length_map _

/-- Slots that are moved are read as the moved ones. -/
theorem At.shift (h : q.At j i) (r : Reading) (top : Nat) :
    Reading.At (r ++ q.shift top) (r.length + j) (top + i) := by
  rw [At, List.getElem?_append_right (Nat.le_add_right _ _), Nat.add_sub_cancel_left, Reading.shift,
    List.getElem?_map, h]
  rfl

/-- Gaps that are moved are gaps. -/
theorem isGap_shift (r q : Reading) (top j : Nat) :
    Reading.IsGap (r ++ q.shift top) (r.length + j) ↔ q.IsGap j := by
  rw [IsGap, List.getElem?_append_right (Nat.le_add_right _ _), Nat.add_sub_cancel_left, shift,
    List.getElem?_map, IsGap]
  simp

/-- A slot is read as before, or is a moved one. -/
theorem at_shift_cases (h : Reading.At (r ++ q.shift top) j i) :
    r.At j i ∨ ∃ j' i', q.At j' i' ∧ j = r.length + j' ∧ i = top + i' := by
  by_cases hlt : j < r.length
  · rw [At, List.getElem?_append_left hlt] at h
    exact Or.inl h
  · obtain ⟨j', rfl⟩ := Nat.exists_eq_add_of_le (Nat.not_lt.1 hlt)
    rw [At, List.getElem?_append_right (Nat.le_add_right _ _), Nat.add_sub_cancel_left, shift,
      List.getElem?_map, Option.map_eq_some_iff] at h
    obtain ⟨entry, hentry, hread⟩ := h
    obtain ⟨i', rfl, rfl⟩ := Option.map_eq_some_iff.1 hread
    exact Or.inr ⟨j', i', hentry, rfl, rfl⟩

/-- The slots that are read are those below the new bound. -/
theorem Covers.shift (h : r.Covers top) (h' : q.Covers count) :
    Reading.Covers (r ++ q.shift top) (top + count) := by
  have hmoved : (q.shift top).reduceOption = q.reduceOption.map (top + ·) := by
    rw [Reading.shift, List.reduceOption_map]
  rw [Covers, List.reduceOption_append, h, hmoved, h', List.range_add]

end Reading

/-- The variable of a clause, moved to the slots from a base on. -/
def Var.moved (names : List String) (base : Nat) (v : Var) : Var :=
  match v.index with
  | some slot => ⟨(names[slot]?).getD v.name, some (base + slot)⟩
  | none => v

/-- A variable with a slot moves by the base, under the name the clause has for the slot. -/
theorem Var.moved_of_index {names : List String} {base slot : Nat} {v : Var}
    (hv : v.index = some slot) :
    v.moved names base = ⟨(names[slot]?).getD v.name, some (base + slot)⟩ := by rw [moved, hv]

/-- A variable without a slot does not move. -/
theorem Var.moved_of_index_eq_none {names : List String} {base : Nat} {v : Var}
    (hv : v.index = none) : v.moved names base = v := by rw [moved, hv]

/-- Where a variable moves, its slot moves by the base. -/
theorem Var.index_moved (names : List String) (base : Nat) (v : Var) :
    (v.moved names base).index = v.index.map (base + ·) := by
  obtain ⟨name, index⟩ := v
  cases index <;> rfl

namespace Term

variable {t : Term} {q r : Reading}

/-- Where variables are counted, none is missed. -/
theorem tallied_of_recount (h : t.recount = t) : t.Tallied := by
  induction t with
  | atom name => exact .atom name
  | number value => exact .number value
  | var v => exact .var v
  | compound functor args varCount ih =>
    obtain ⟨-, hargs, hcount⟩ := compound.inj ((recount_compound ..).symm.trans h)
    rw [hargs] at hcount
    refine .compound (fun t ht => ih t ht ?_) fun hzero t ht => ?_
    · exact List.map_inj_left.1 (hargs.trans (List.map_id args).symm) t ht
    · rw [hzero, List.length_eq_zero_iff, List.dedup_eq_nil, List.flatMap_eq_nil_iff] at hcount
      exact hcount t ht

/-- A term that is read has the right counts. -/
theorem recount_readBy (t : Term) : (t.readBy r).recount = t.readBy r := recount_recount _

end Term

namespace Clause

variable {clause clause' : Clause} {q r : Reading} {t : Term}

/-- Renaming moves the variables. -/
theorem instantiate_eq_mapVars (h : t.Placed clause.varCount) (base : Nat) :
    t.instantiate (clause.frame base) = t.mapVars (Var.moved clause.varNames base) := by
  induction t with
  | atom | number => simp
  | var v =>
    rw [Term.instantiate_var, Term.mapVars_var]
    rcases Term.scoped_var.1 h.scope with rfl | ⟨slot, hlt, hslot⟩
    · rfl
    · have hname : clause.varNames[slot]? = some clause.varNames[slot] :=
        List.getElem?_eq_getElem hlt
      rw [hslot, Option.bind_some, frame_getElem?_eq, Var.moved_of_index hslot, hname]
      rfl
  | compound functor args varCount ih =>
    have hscope := Term.scoped_compound.1 h.scope
    obtain ⟨hargs, hcount⟩ :
        (∀ t ∈ args, t.Tallied) ∧ (varCount = 0 → ∀ t ∈ args, t.slots = []) := by
      cases h.tallied with
      | compound hargs hcount => exact ⟨hargs, hcount⟩
    rw [Term.instantiate_compound, Term.mapVars_compound]
    congr 1
    split
    · exact List.map_congr_left fun t ht => ih t ht ⟨hscope t ht, hargs t ht⟩
    · next hnone =>
      have hsame : ∀ t ∈ args, t.mapVars (Var.moved clause.varNames base) = t := fun t ht => by
        refine (Term.mapVars_congr fun v hv => ?_).trans t.mapVars_id
        cases hindex : v.index with
        | none => exact Var.moved_of_index_eq_none hindex
        | some slot =>
          have hslot : slot ∈ t.slots := List.mem_filterMap.2 ⟨.var v, hv, hindex⟩
          rw [hcount (by omega) t ht] at hslot
          cases hslot
      rw [List.map_congr_left hsame, List.map_id']

/-- A fact is read as a fact. -/
theorem ReadAs.isFact_eq (h : ReadAs q clause clause') : clause'.isFact = clause.isFact := by
  have hbody : clause'.body.readBy q = clause.body :=
    (List.cons.inj (List.cons.inj h.read).2).1
  rw [isFact, isFact, ← hbody]
  cases clause'.body with
  | atom | number | var => rfl
  | compound =>
    rw [Term.readBy_compound]
    rfl

section Instance

variable (h : ReadAs q clause clause') (ht : t.Fits q)

include h ht

/-- A term that can be read is placed, and so is what it stands for. -/
theorem ReadAs.placed : t.Placed clause'.varCount ∧ (t.readBy q).Placed clause.varCount := by
  have hlength : q.length = clause'.varCount := h.length
  refine ⟨⟨?_, Term.tallied_of_recount ht.counted⟩,
    ⟨ht.scoped_readBy h.covers, Term.tallied_of_recount (Term.recount_readBy t)⟩⟩
  rw [← hlength]
  exact ht.scoped_self

/-- Moving variables and then reading them is reading and then moving them. -/
theorem ReadAs.readBy_instantiate (r : Reading) (top : Nat) :
    (t.instantiate (clause'.frame r.length)).readBy (r ++ q.shift top) =
      (t.readBy q).instantiate (clause.frame top) := by
  obtain ⟨hplaced', hplaced⟩ := h.placed ht
  have hmoved : (t.readBy q).mapVars (Var.moved clause.varNames top) =
      ((t.mapVars (Var.readBy q)).mapVars (Var.moved clause.varNames top)).recount :=
    (Term.recount_mapVars (fun _ _ => Nat.add_left_cancel)
      fun v _ => v.index_moved clause.varNames top).symm
  rw [instantiate_eq_mapVars hplaced', instantiate_eq_mapVars hplaced, hmoved, Term.readBy,
    Term.mapVars_mapVars, Term.mapVars_mapVars]
  refine congrArg Term.recount (Term.mapVars_congr fun v hv => ?_)
  obtain ⟨_, j, hlt, hindex⟩ := ht.named v hv
  rw [Function.comp_apply, Function.comp_apply]
  have hmoved' := Var.index_moved clause'.varNames r.length v
  rw [hindex, Option.map_some] at hmoved'
  rcases Reading.isGap_or_at hlt with hgap | ⟨i, hat⟩
  · rw [Var.readBy_of_isGap hmoved' ((Reading.isGap_shift ..).2 hgap),
      Var.readBy_of_isGap hindex hgap]
    rfl
  · rw [Var.readBy_of_at hmoved' (hat.shift r top), Var.readBy_of_at hindex hat,
      Var.moved_of_index hindex, Var.moved_of_index rfl]
    have hnames := h.names hat
    have hnamed : j < clause'.varNames.length := h.length ▸ hlt
    have hname : clause'.varNames[j]? = some clause'.varNames[j] := List.getElem?_eq_getElem hnamed
    rw [← hnames, hname]

/-- A term of the instance can be read. -/
theorem ReadAs.fits_instantiate (r : Reading) (top : Nat) :
    (t.instantiate (clause'.frame r.length)).Fits (r ++ q.shift top) := by
  rw [instantiate_eq_mapVars (h.placed ht).1]
  refine ⟨fun w hw => ?_, ?_⟩
  · obtain ⟨v, hv, rfl⟩ := Term.exists_of_mem_leaves_mapVars hw
    obtain ⟨_, j, hlt, hindex⟩ := ht.named v hv
    have hlt' : j < clause'.varNames.length := h.length ▸ hlt
    rw [Var.moved_of_index hindex, List.getElem?_eq_getElem hlt', Option.getD_some]
    refine ⟨?_, r.length + j, ?_, rfl⟩
    · simpa [Var.isAnonymous] using h.named _ (List.getElem_mem hlt')
    · rw [List.length_append, Reading.length_shift]
      omega
  · rw [Term.recount_mapVars (g := (r.length + ·)) (fun _ _ => Nat.add_left_cancel)
      fun v _ => v.index_moved clause'.varNames r.length, ht.counted]

/-- The gaps are moved with the other slots. -/
theorem ReadAs.gaps_instantiate (r : Reading) (top : Nat) :
    (t.instantiate (clause'.frame r.length)).gaps (r ++ q.shift top) =
      (t.gaps q).map (r.length + ·) := by
  rw [instantiate_eq_mapVars (h.placed ht).1, Term.gaps, Term.gaps,
    Term.slots_mapVars fun v _ => v.index_moved clause'.varNames r.length, List.filter_map]
  congr 1
  refine List.filter_congr fun j _ => ?_
  rw [Function.comp_apply, decide_eq_decide]
  exact Reading.isGap_shift r q top j

end Instance

end Clause

end ClauseResolution
