import ClauseResolution.Proofs.Clause.Normalization

/-!
# Slots and the identity of variables

Normalization tells variables apart by name and index, while indexed variables are the same by
their index alone. Two places with one slot therefore have the same variable, but the same variable
can get several slots, namely when it stands under one index with different names.
-/

namespace ClauseResolution

namespace Var

variable {v w : Var}

/-- Variables are the same when their indices are, and their names too where there is none. -/
theorem same_iff : v.same w ↔ v.index = w.index ∧ (v.index = none → v.name = w.name) := by
  cases hv : v.index <;> cases hw : w.index <;> simp [same, hv, hw]

end Var

namespace Term

variable {t : Term} {v w : Var} {i j : Nat}

/-- The variable of a leaf, unless it is anonymous. -/
def named? : Term → Option Var
  | .var v => if v.isAnonymous then none else some v
  | _ => none

/-- A leaf is named when it is a variable that is not anonymous. -/
theorem named?_eq_some {leaf : Term} :
    leaf.named? = some v ↔ leaf = .var v ∧ v.isAnonymous = false := by
  cases leaf with
  | var w =>
    rw [named?, var.injEq]
    cases hw : w.isAnonymous <;> simp <;> grind
  | atom | number | compound => simp [named?]

/-- The variable that occurs at a place in the reading order, unless it is anonymous. -/
def namedAt? (t : Term) (place : Nat) : Option Var := t.leaves[place]?.bind named?

/-- The slot at a place in the reading order. -/
def slotAt? (t : Term) (place : Nat) : Option Nat := t.leaves[place]?.bind slot?

/-- A named variable stands at a place when the leaf there is this variable. -/
theorem namedAt?_eq_some :
    t.namedAt? i = some v ↔ t.leaves[i]? = some (.var v) ∧ v.isAnonymous = false := by
  rw [namedAt?, Option.bind_eq_some_iff]
  constructor
  · rintro ⟨leaf, hleaf, hnamed⟩
    obtain ⟨rfl, hv⟩ := named?_eq_some.1 hnamed
    exact ⟨hleaf, hv⟩
  · rintro ⟨hleaf, hv⟩
    exact ⟨_, hleaf, named?_eq_some.2 ⟨rfl, hv⟩⟩

/-- The variables of a term are those that occur at its places. -/
theorem mem_namedVars_iff_namedAt? : v ∈ t.namedVars ↔ ∃ place, t.namedAt? place = some v := by
  rw [mem_namedVars, List.mem_iff_getElem?, ← exists_and_right]
  exact exists_congr fun _ => namedAt?_eq_some.symm

/-- A variable that occurs at a place has its slot there in the normalized term. -/
theorem slotAt?_normalize (h : t.namedAt? i = some v) :
    t.normalize.term.slotAt? i = some (t.numbering.listed.idxOf v) := by
  obtain ⟨hleaf, hv⟩ := namedAt?_eq_some.1 h
  have hplaced : t.normalize.term.leaves[i]? = some (.var (t.numbering.place v)) := by
    rw [normalize_eq, Numbering.numbered, leaves_recount, leaves_mapVars, List.getElem?_map, hleaf]
    rfl
  rw [slotAt?, hplaced, Numbering.place_named hv]
  rfl

/-- Two places get one slot exactly when name and index are the same. -/
theorem slotAt?_normalize_eq_iff (hi : t.namedAt? i = some v) (hj : t.namedAt? j = some w) :
    t.normalize.term.slotAt? i = t.normalize.term.slotAt? j ↔ v = w := by
  have hv : v ∈ t.numbering.listed :=
    mem_numbering.2 (mem_namedVars_iff_namedAt?.2 ⟨i, hi⟩)
  rw [slotAt?_normalize hi, slotAt?_normalize hj, Option.some_inj, List.idxOf_inj hv]

/-- Each index stands under one name. -/
def NamedByIndex (t : Term) : Prop :=
  ∀ v ∈ t.namedVars, ∀ w ∈ t.namedVars, v.index.isSome → v.index = w.index → v.name = w.name

/-- Where each index stands under one name, the same variables are equal. -/
theorem NamedByIndex.eq_of_same (h : t.NamedByIndex) (hv : v ∈ t.namedVars) (hw : w ∈ t.namedVars)
    (hsame : v.same w) : v = w := by
  obtain ⟨hindex, hname⟩ := Var.same_iff.1 hsame
  have hnames : v.name = w.name := by
    cases hslot : v.index with
    | none => exact hname hslot
    | some slot => exact h v hv w hw (by simp [hslot]) hindex
  cases v
  cases w
  simp_all

/-- Normalization never gives one slot to variables that are not the same. It gives one slot to
any two places with the same variable exactly when no index stands under two names in the term. -/
theorem normalize_identity (t : Term) :
    (∀ i j v w, t.namedAt? i = some v → t.namedAt? j = some w →
      t.normalize.term.slotAt? i = t.normalize.term.slotAt? j → v.same w) ∧
    ((∀ i j v w, t.namedAt? i = some v → t.namedAt? j = some w →
      (t.normalize.term.slotAt? i = t.normalize.term.slotAt? j ↔ v.same w)) ↔
      t.NamedByIndex) := by
  have hsame : ∀ i j v w, t.namedAt? i = some v → t.namedAt? j = some w →
      t.normalize.term.slotAt? i = t.normalize.term.slotAt? j → v.same w := by
    intro i j v w hi hj heq
    rw [slotAt?_normalize_eq_iff hi hj] at heq
    exact heq ▸ v.same_self
  refine ⟨hsame, fun h v hv w hw hindexed hindex => ?_, fun h i j v w hi hj => ?_⟩
  · obtain ⟨i, hi⟩ := mem_namedVars_iff_namedAt?.1 hv
    obtain ⟨j, hj⟩ := mem_namedVars_iff_namedAt?.1 hw
    have hone : v.same w := by
      refine Var.same_iff.2 ⟨hindex, fun hnone => ?_⟩
      rw [hnone] at hindexed
      cases hindexed
    rw [(slotAt?_normalize_eq_iff hi hj).1 ((h i j v w hi hj).2 hone)]
  · refine ⟨hsame i j v w hi hj, fun hone => (slotAt?_normalize_eq_iff hi hj).2 ?_⟩
    exact h.eq_of_same (mem_namedVars_iff_namedAt?.2 ⟨i, hi⟩) (mem_namedVars_iff_namedAt?.2 ⟨j, hj⟩)
      hone

/-- One variable under the names `X` and `Y` gets two slots. -/
theorem normalize_identity_renamed :
    let x : Var := ⟨"X", some 3⟩
    let y : Var := ⟨"Y", some 3⟩
    let t : Term := .compound "f" [.var x, .var y] 0
    x.same y ∧ t.namedAt? 0 = some x ∧ t.namedAt? 1 = some y ∧
      t.normalize.term.slotAt? 0 = some 0 ∧ t.normalize.term.slotAt? 1 = some 1 := by
  with_unfolding_all decide

end Term

end ClauseResolution
