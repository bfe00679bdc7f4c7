import ClauseResolution.Proofs.Substitution.Tracking
import ClauseResolution.Proofs.Unification.Names

/-!
# Unification with variables for the anonymous one

A unification of terms with a variable for each gap takes the steps of the unification of the
terms for which they stand, as long as the latter binds no variable to a term with a blank. Where
the one passes over the anonymous variable, the other binds the variable of the gap, or binds
another variable to it. Each gap is met once at most: it stands in one place only, and no value
contains it. So what the gap is bound to is never looked at.
-/

namespace ClauseResolution

/-- Both occurrences of a pair, as they are read. -/
def readPair (r : Reading) (p : Occurrence × Occurrence) : Occurrence × Occurrence :=
  (p.1.readBy r, p.2.readBy r)

/-- The arguments of a pair of terms are read as the arguments of the terms they stand for. -/
theorem map_readPair_args {r : Reading} (left right : Occurrence)
    (pairs : List (Occurrence × Occurrence)) :
    (left.args.zip right.args ++ pairs).map (readPair r) =
      (left.readBy r).args.zip (right.readBy r).args ++ pairs.map (readPair r) := by
  rw [List.map_append, Occurrence.args_readBy, Occurrence.args_readBy]
  exact congrArg (· ++ _) (List.zip_map ..).symm

/-- A compound term stands for a compound term. -/
@[simp] theorem Occurrence.isCompound_readBy {r : Reading} (o : Occurrence) :
    (o.readBy r).isCompound = o.isCompound := by
  obtain ⟨text, node, term⟩ := o
  cases term with
  | compound => rw [isCompound, term_readBy, Term.readBy_compound]; rfl
  | atom | number | var => rfl

namespace Term

variable {r : Reading} {t u : Term} {top : Nat}

/-- A glance tells terms equal if it does so for the terms for which they stand. -/
theorem sameConstant_readBy (hr : r.Covers top) (ht : t.Fits r) (hu : u.Fits r)
    (hnodup : (t.gaps r ++ u.gaps r).Nodup) :
    (t.readBy r).sameConstant (u.readBy r) = t.sameConstant u := by
  cases t <;> cases u <;> try rfl
  next v w =>
    rw [gaps, gaps, slots_var, slots_var] at hnodup
    obtain ⟨_, ⟨j, hj, hgap, hv⟩ | ⟨j, i, hj, hat, hv⟩⟩ := ht.var_cases <;>
      obtain ⟨_, ⟨k, hk, hgap', hw⟩ | ⟨k, m, hk, hat', hw⟩⟩ := hu.var_cases <;>
      simp only [readBy_var, sameConstant, hv, hw, hj, hk, Var.anonymous, Option.isSome_none,
        Option.isSome_some, Bool.false_and, Bool.true_and]
    · have hne : j ≠ k := by simpa [hj, hk, hgap, hgap'] using hnodup
      simpa using hne
    · have hne : j ≠ k := fun heq => hat'.not_isGap (heq ▸ hgap)
      simpa using hne
    · have hne : j ≠ k := fun heq => hat.not_isGap (heq ▸ hgap')
      simpa using hne
    · have hiff : i = m ↔ j = k :=
        ⟨fun heq => hr.injective hat (heq ▸ hat'), fun heq => hat.functional (heq ▸ hat')⟩
      rw [Bool.eq_iff_iff, beq_iff_eq, beq_iff_eq, Option.some.injEq, Option.some.injEq, hiff]

end Term

namespace Substitution

variable {r : Reading} {s s' : Substitution} {left right value value' : Occurrence}
  {g i j k k' m m' : Nat} {occursCheck : Bool} {entered : List (Occurrence × Occurrence)}

/-- A step with variables for the gaps in a pair, and the step for which it stands. -/
inductive StepReads (r : Reading) (s s' : Substitution) (gaps : List Nat) :
    PairStep → PairStep → Prop
  /-- Both pairs are solved. -/
  | skip : StepReads r s s' gaps .skip .skip
  /-- Neither pair can be solved. -/
  | clash : StepReads r s s' gaps .clash .clash
  /-- Where the anonymous variable is passed over, the variable of the gap is bound. -/
  | fill {v : Var} {value : Occurrence} {g : Nat} (hindex : v.index = some g) (hgap : g ∈ gaps)
      (hfits : value.term.Fits r)
      (hvalue : ∀ m', value.slot? = some m' → m' ∈ gaps ∨ ∃ m, Stands r s s' m' m) :
      StepReads r s s' gaps .skip (.bind v value)
  /-- Where the anonymous variable is passed over, a variable is bound to that of the gap. -/
  | lend {v : Var} {value : Occurrence} {g k' k : Nat} (hindex : v.index = some k')
      (hstands : Stands r s s' k' k) (hslot : value.slot? = some g) (hgap : g ∈ gaps)
      (hfits : value.term.Fits r) : StepReads r s s' gaps .skip (.bind v value)
  /-- Variables that stand for each other are bound alike. -/
  | bind {v v' : Var} {value value' : Occurrence} {k' k : Nat} (hindex : v.index = some k)
      (hindex' : v'.index = some k') (hstands : Stands r s s' k' k) (hfits : value'.term.Fits r)
      (halike : Occurrence.Alike r value value')
      (hvalue : ∀ {m m'}, value.slot? = some m → value'.slot? = some m' → Stands r s s' m' m) :
      StepReads r s s' gaps (.bind v value) (.bind v' value')
  /-- Both go on with the arguments. -/
  | descend {left right : Occurrence} {remember : Bool} :
      StepReads r s s' gaps (.descend (left.readBy r) (right.readBy r) remember)
        (.descend left right remember)

/-- The variable of a gap is bound to a term that is no variable. -/
theorem StepReads.fill_node {gaps : List Nat} {v : Var} (hindex : v.index = some g)
    (hgap : g ∈ gaps) (hmet : Met r s s' left) :
    StepReads r s s' gaps .skip (.bind v (s'.deref left)) := by
  refine .fill hindex hgap hmet.fits fun m' hm' => ?_
  rw [Occurrence.slot?_of_isVar_eq_false hmet.node] at hm'
  cases hm'

/-- The variable of a gap is bound to another variable. -/
theorem StepReads.fill_slot {gaps : List Nat} {v : Var} (hindex : v.index = some g)
    (hgap : g ∈ gaps) (hfits : value.term.Fits r) (hslot : value.slot? = some k')
    (hk' : k' ∈ gaps ∨ ∃ k, Stands r s s' k' k) : StepReads r s s' gaps .skip (.bind v value) := by
  refine .fill hindex hgap hfits fun m' hm' => ?_
  obtain rfl := Option.some.inj (hslot.symm.trans hm')
  exact hk'

/-- A variable that is bound to a term, and the one for which it stands. -/
theorem StepReads.assign {gaps : List Nat} {v v' : Var} (hindex : v.index = some k)
    (hindex' : v'.index = some k') (hstands : Stands r s s' k' k) (hmet : Met r s s' left) :
    StepReads r s s' gaps (.bind v (s.deref (left.readBy r))) (.bind v' (s'.deref left)) := by
  refine .bind hindex hindex' hstands hmet.fits ?_ fun _ hm' => ?_
  · rw [hmet.read]
    exact .node hmet.node
  · rw [Occurrence.slot?_of_isVar_eq_false hmet.node] at hm'
    cases hm'

/-- Where a pair ends, the places tell the same as where the pair for which it stands ends: whether
it was entered before, and whether both sides are in one place. -/
structure SeenAlike (r : Reading) (s s' : Substitution) (entered : List (Occurrence × Occurrence))
    (left right : Occurrence) : Prop where
  /-- The one was entered if the other was. -/
  met : Layout.byOccurrence.met (entered.map (readPair r)) (s.deref (left.readBy r))
    (s.deref (right.readBy r)) = Layout.byOccurrence.met entered (s'.deref left) (s'.deref right)
  /-- The one is dropped at a glance if the other is. -/
  drops : Layout.byOccurrence.drops (s.deref (left.readBy r)) (s.deref (right.readBy r)) =
    Layout.byOccurrence.drops (s'.deref left) (s'.deref right)

/-- Neither side of a pair is dropped before it is followed, or both are. -/
theorem SeenAlike.sameReference (h : SeenAlike r s s' entered left right)
    (hsame : (left.readBy r).term.sameConstant (right.readBy r).term = false)
    (hconstant : left.term.sameConstant right.term = false) :
    Layout.byOccurrence.sameReference (left.readBy r) (right.readBy r) =
      Layout.byOccurrence.sameReference left right := by
  have hdrops := h.drops
  rw [Layout.sameReference, Layout.sameReference, hsame, hconstant, Bool.false_or, Bool.false_or]
  cases hl : left.isCompound with
  | false => simp [Layout.drops, Layout.shares, hl]
  | true =>
    cases hr : right.isCompound with
    | false => simp [Layout.drops, Layout.shares, hr]
    | true =>
      rwa [deref_of_isCompound hl, deref_of_isCompound hr,
        deref_of_isCompound ((left.isCompound_readBy).trans hl),
        deref_of_isCompound ((right.isCompound_readBy).trans hr)] at hdrops

namespace Tracks

/-- The occurs test of variables that stand for each other. -/
theorem occurs_met {v w : Var} (h : Tracks r s s') (hmet : Met r s s' left)
    (hloose : ∀ g ∈ left.gaps r, Loose r s' g) (hstands : Stands r s s' k' k)
    (hv : v.index = some k') (hw : w.index = some k) :
    s.occurs w (s.deref (left.readBy r)).term = s'.occurs v (s'.deref left).term := by
  obtain ⟨hfree, hfree'⟩ := h.valueAt_of_stands hstands
  rw [← hmet.gaps] at hloose
  have hreaches := h.reaches_iff hmet.fits hloose hstands
  rw [hmet.read, Bool.eq_iff_iff, occurs_iff, occurs_iff]
  simp [hv, hw, hfree, hfree', hreaches]

/-- The variable of a gap does not occur elsewhere. -/
theorem occurs_of_loose {v : Var} (h : Tracks r s s') (hmet : Met r s s' left)
    (hloose : ∀ g ∈ left.gaps r, Loose r s' g) (hg : Loose r s' g) (hmem : g ∉ left.gaps r)
    (hv : v.index = some g) : s'.occurs v (s'.deref left).term = false := by
  rw [← hmet.gaps] at hloose hmem
  rw [← Bool.not_eq_true, occurs_iff]
  rintro ⟨slot, hslot, _, hreaches⟩
  obtain rfl : g = slot := Option.some.inj (hv.symm.trans hslot)
  exact h.not_reaches_of_loose hmet.fits hloose hg hmem hreaches

/-- Two terms that are no variables call for what the terms for which they stand call for. -/
theorem pairStep_reads_of_nodes {gaps : List Nat}
    (hsame : (left.readBy r).term.sameConstant (right.readBy r).term = false)
    (hconstant : left.term.sameConstant right.term = false) (hl : Met r s s' left)
    (hr : Met r s s' right) (hseen : SeenAlike r s s' entered left right) :
    StepReads r s s' gaps
      (s.pairStep .byOccurrence occursCheck (entered.map (readPair r)) (left.readBy r)
        (right.readBy r))
      (s'.pairStep .byOccurrence occursCheck entered left right) := by
  have hreference := hseen.sameReference hsame hconstant
  obtain ⟨hentered, hdrops⟩ := hseen
  rw [pairStep, pairStep, hreference]
  rw [hl.read, hr.read] at hentered hdrops
  simp only [hl.read, hr.read, hentered, hdrops, Occurrence.isVar_readBy, Occurrence.term_readBy]
  replace hl := Occurrence.ne_var hl.node
  replace hr := Occurrence.ne_var hr.node
  generalize s'.deref left = a at hl ⊢
  generalize s'.deref right = b at hr ⊢
  cases ha : a.term with
  | var v => exact absurd ha (hl v)
  | atom | number | compound =>
    cases hb : b.term with
    | var w => exact absurd hb (hr w)
    | atom | number | compound =>
      simp only [Term.readBy_atom, Term.readBy_number, Term.readBy_compound, List.length_map]
      repeat' split
      all_goals constructor

section Faces

variable (h : Tracks r s s')
  (hsame : (left.readBy r).term.sameConstant (right.readBy r).term = false)
  (hconstant : left.term.sameConstant right.term = false)
  (hlooseLeft : ∀ g ∈ left.gaps r, Loose r s' g) (hlooseRight : ∀ g ∈ right.gaps r, Loose r s' g)
  (hdisjoint : ∀ g ∈ left.gaps r, g ∉ right.gaps r)

include h hsame hconstant hlooseRight

/-- A free slot is met on the left. -/
theorem pairStep_reads_of_free {v w : Var} (hr : right.term.Fits r)
    (hv : (s'.deref left).term = .var v) (hw : (s.deref (left.readBy r)).term = .var w)
    (hnamed : v.isAnonymous = false) (hnamed' : w.isAnonymous = false) (hindex : v.index = some k')
    (hindex' : w.index = some k) (hstands : Stands r s s' k' k) :
    StepReads r s s' (left.gaps r ++ right.gaps r)
      (s.pairStep .byOccurrence occursCheck (entered.map (readPair r)) (left.readBy r)
        (right.readBy r))
      (s'.pairStep .byOccurrence occursCheck entered left right) := by
  cases h.faces hr hlooseRight with
  | @gap v' w' g hself hv' hnamed'' hindex'' hgap hw' hanonymous =>
    have hne := hstands.ne_of_loose (hlooseRight g hgap)
    have hslot : (s'.deref right).slot? = some g := by
      rw [hself, Occurrence.slot?, hv', Term.slot?, hindex'']
    rw [pairStep_of_vars hsame hw hw', pairStep_of_vars hconstant hv (by rw [hself, hv'])]
    simp only [hanonymous, hnamed, hnamed'', Var.same_of_index_ne hindex hindex'' hne,
      Bool.or_true, Bool.true_or, Bool.or_false, if_true, Bool.false_eq_true, if_false]
    exact .lend hindex hstands hslot (List.mem_append_right _ hgap) (h.fits_deref hr)
  | node hmet =>
    have hoccurs := h.occurs_met hmet hlooseRight hstands hindex hindex'
    rw [pairStep_of_left hw hmet.node' hsame, pairStep_of_left hv hmet.node hconstant, hoccurs]
    simp only [hnamed, hnamed', Bool.false_eq_true, if_false]
    split
    · exact .clash
    · exact .assign hindex' hindex hstands hmet
  | @free v₂ w₂ k₂' k₂ hv₂ hw₂ hnamed₂ hnamed₂' hindex₂ hindex₂' hstands₂ =>
    have hiff : k = k₂ ↔ k' = k₂' :=
      ⟨fun heq => h.injective hstands (heq ▸ hstands₂),
        fun heq => h.functional hstands (heq ▸ hstands₂)⟩
    have hother : w.same w₂ = v.same v₂ := by
      simp only [Var.same, hindex, hindex', hindex₂, hindex₂']
      rw [Bool.eq_iff_iff, beq_iff_eq, beq_iff_eq, hiff]
    have hslot : (s.deref (right.readBy r)).slot? = some k₂ := by
      rw [Occurrence.slot?, hw₂, Term.slot?, hindex₂']
    have hslot' : (s'.deref right).slot? = some k₂' := by
      rw [Occurrence.slot?, hv₂, Term.slot?, hindex₂]
    rw [pairStep_of_vars hsame hw hw₂, pairStep_of_vars hconstant hv hv₂, hother]
    simp only [hnamed, hnamed', hnamed₂, hnamed₂', Bool.or_self, Bool.false_or]
    split
    · exact .skip
    · refine .bind hindex' hindex hstands (h.fits_deref hr) (.free hslot hslot') fun hm hm' => ?_
      obtain rfl := Option.some.inj (hslot.symm.trans hm)
      obtain rfl := Option.some.inj (hslot'.symm.trans hm')
      exact hstands₂

include hlooseLeft hdisjoint

/-- A gap is met on the left: its variable is bound to whatever stands on the right. -/
theorem pairStep_reads_of_gap {v w : Var} (hr : right.term.Fits r) (hself : s'.deref left = left)
    (hv : left.term = .var v) (hnamed : v.isAnonymous = false) (hindex : v.index = some g)
    (hgap : g ∈ left.gaps r) (hw : (s.deref (left.readBy r)).term = .var w)
    (hanonymous : w.isAnonymous = true) :
    StepReads r s s' (left.gaps r ++ right.gaps r)
      (s.pairStep .byOccurrence occursCheck (entered.map (readPair r)) (left.readBy r)
        (right.readBy r))
      (s'.pairStep .byOccurrence occursCheck entered left right) := by
  have hmem := List.mem_append_left (right.gaps r) hgap
  have hend : (s'.deref left).term = .var v := by rw [hself, hv]
  cases h.faces hr hlooseRight with
  | @gap v' w' g' hself' hv' hnamed' hindex' hgap' hw' hanonymous' =>
    have hne : g ≠ g' := fun heq => hdisjoint g hgap (heq ▸ hgap')
    have hslot : (s'.deref right).slot? = some g' := by
      rw [hself', Occurrence.slot?, hv', Term.slot?, hindex']
    rw [pairStep_of_vars hsame hw hw', pairStep_of_vars hconstant hend (by rw [hself', hv'])]
    simp only [hanonymous, hnamed, hnamed', Var.same_of_index_ne hindex hindex' hne, Bool.true_or,
      Bool.or_false, if_true, Bool.false_eq_true, if_false]
    exact .fill_slot hindex hmem (h.fits_deref hr) hslot (Or.inl (List.mem_append_right _ hgap'))
  | node hmet =>
    have hoccurs := h.occurs_of_loose hmet hlooseRight (hlooseLeft g hgap) (hdisjoint g hgap) hindex
    rw [pairStep_of_left hw hmet.node' hsame, pairStep_of_left hend hmet.node hconstant, hoccurs]
    simp only [hanonymous, hnamed, if_true, Bool.and_false, Bool.false_eq_true, if_false]
    exact .fill_node hindex hmem hmet
  | @free v' w' k' k hv' hw' hnamed' _ hindex' _ hstands =>
    have hne := (hstands.ne_of_loose (hlooseLeft g hgap)).symm
    have hslot : (s'.deref right).slot? = some k' := by
      rw [Occurrence.slot?, hv', Term.slot?, hindex']
    rw [pairStep_of_vars hsame hw hw', pairStep_of_vars hconstant hend hv']
    simp only [hanonymous, hnamed, hnamed', Var.same_of_index_ne hindex hindex' hne, Bool.true_or,
      Bool.or_false, if_true, Bool.false_eq_true, if_false]
    exact .fill_slot hindex hmem (h.fits_deref hr) hslot (Or.inr ⟨k, hstands⟩)

/-- A term that is no variable is met on the left. -/
theorem pairStep_reads_of_node (hr : right.term.Fits r) (hmet : Met r s s' left)
    (hseen : Met r s s' right → SeenAlike r s s' entered left right) :
    StepReads r s s' (left.gaps r ++ right.gaps r)
      (s.pairStep .byOccurrence occursCheck (entered.map (readPair r)) (left.readBy r)
        (right.readBy r))
      (s'.pairStep .byOccurrence occursCheck entered left right) := by
  cases h.faces hr hlooseRight with
  | @gap v w g hself hv hnamed hindex hgap hw hanonymous =>
    have hend : (s'.deref right).term = .var v := by rw [hself, hv]
    have hoccurs := h.occurs_of_loose hmet hlooseLeft (hlooseRight g hgap)
      (fun hg => hdisjoint g hg hgap) hindex
    rw [pairStep_of_right hmet.node' hw hsame, pairStep_of_right hmet.node hend hconstant, hoccurs]
    simp only [hanonymous, hnamed, if_true, Bool.and_false, Bool.false_eq_true, if_false]
    exact .fill_node hindex (List.mem_append_right _ hgap) hmet
  | node hmet' => exact pairStep_reads_of_nodes hsame hconstant hmet hmet' (hseen hmet')
  | free hv hw hnamed hnamed' hindex hindex' hstands =>
    have hoccurs := h.occurs_met hmet hlooseLeft hstands hindex hindex'
    rw [pairStep_of_right hmet.node' hw hsame, pairStep_of_right hmet.node hv hconstant, hoccurs]
    simp only [hnamed, hnamed', Bool.false_eq_true, if_false]
    split
    · exact .clash
    · exact .assign hindex' hindex hstands hmet

end Faces

variable (occursCheck) in
/-- A pair of terms with variables for the gaps calls for what the pair of the terms for which
they stand calls for. -/
theorem pairStep_reads (h : Tracks r s s') (hl : left.term.Fits r) (hr : right.term.Fits r)
    (hnodup : (left.gaps r ++ right.gaps r).Nodup)
    (hloose : ∀ g ∈ left.gaps r ++ right.gaps r, Loose r s' g)
    (hseen : Met r s s' left → Met r s s' right → SeenAlike r s s' entered left right) :
    StepReads r s s' (left.gaps r ++ right.gaps r)
      (s.pairStep .byOccurrence occursCheck (entered.map (readPair r)) (left.readBy r)
        (right.readBy r))
      (s'.pairStep .byOccurrence occursCheck entered left right) := by
  have hsame : (left.readBy r).term.sameConstant (right.readBy r).term =
      left.term.sameConstant right.term := Term.sameConstant_readBy h.covers hl hr hnodup
  cases hconstant : left.term.sameConstant right.term with
  | true =>
    rw [pairStep_of_constant (hsame.trans hconstant), pairStep_of_constant hconstant]
    exact .skip
  | false =>
    rw [hconstant] at hsame
    obtain ⟨hlooseLeft, hlooseRight⟩ := List.forall_mem_append.1 hloose
    obtain ⟨_, _, happart⟩ := List.nodup_append.1 hnodup
    have hdisjoint : ∀ g ∈ left.gaps r, g ∉ right.gaps r := fun g hg hg' => happart g hg g hg' rfl
    cases h.faces hl hlooseLeft with
    | gap hself hv hnamed hindex hgap hw hanonymous =>
      exact h.pairStep_reads_of_gap hsame hconstant hlooseLeft hlooseRight hdisjoint hr hself hv
        hnamed hindex hgap hw hanonymous
    | node hmet =>
      exact h.pairStep_reads_of_node hsame hconstant hlooseLeft hlooseRight hdisjoint hr hmet
        (hseen hmet)
    | free hv hw hnamed hnamed' hindex hindex' hstands =>
      exact h.pairStep_reads_of_free hsame hconstant hlooseRight hr hv hw hnamed hnamed' hindex
        hindex' hstands

end Tracks

/-- The blanks below the term at which an occurrence ends are blanks of the occurrence. -/
theorem Met.blanks_args (h : Met r s s' left) :
    ((s'.deref left).args.map (Occurrence.readBy r)).flatMap Occurrence.blanks ⊆
      (left.readBy r).blanks := by
  rw [← Occurrence.args_readBy,
    Occurrence.flatMap_blanks_args ((Occurrence.isVar_readBy _).trans h.node)]
  rcases h.self_readBy with heq | hfree
  · rw [heq]
    exact List.Subset.refl _
  · rw [Occurrence.blanks_eq_nil_iff.2 hfree]
    exact List.nil_subset _

/-- The gaps in the left terms of some pairs, and then in the right ones. -/
def pairGaps (r : Reading) (pairs : List (Occurrence × Occurrence)) : List Nat :=
  (pairs.map Prod.fst).flatMap (Occurrence.gaps r) ++
    (pairs.map Prod.snd).flatMap (Occurrence.gaps r)

/-- Pairs to be unified, with the gaps that stand elsewhere. -/
structure Pending (r : Reading) (s : Substitution) (others : List Nat)
    (entered pending : List (Occurrence × Occurrence)) : Prop where
  /-- The terms can be read. -/
  fits : ∀ p ∈ pending, p.1.term.Fits r ∧ p.2.term.Fits r
  /-- The terms of the pairs that were entered can be read. -/
  fitsEntered : ∀ p ∈ entered, p.1.term.Fits r ∧ p.2.term.Fits r
  /-- No gap stands in two places. -/
  nodup : (pairGaps r pending ++ others).Nodup
  /-- The gaps are loose. -/
  loose : ∀ g ∈ pairGaps r pending ++ others, Loose r s g
  /-- On the left, what has a blank is met once only. -/
  left : Occurrence.Distinct ((entered.map Prod.fst).map (Occurrence.readBy r))
    ((pending.map Prod.fst).map (Occurrence.readBy r))
  /-- So it is on the right. -/
  right : Occurrence.Distinct ((entered.map Prod.snd).map (Occurrence.readBy r))
    ((pending.map Prod.snd).map (Occurrence.readBy r))
  /-- No blank stands on both sides. -/
  apart : (((pending.map Prod.fst).map (Occurrence.readBy r)).flatMap Occurrence.blanks).Disjoint
    (((pending.map Prod.snd).map (Occurrence.readBy r)).flatMap Occurrence.blanks)

/-- The gaps of some pairs are those of the first pair and of the others, side by side. -/
theorem pairGaps_cons (r : Reading) (left right : Occurrence)
    (pairs : List (Occurrence × Occurrence)) : pairGaps r ((left, right) :: pairs) =
      left.gaps r ++ (pairs.map Prod.fst).flatMap (Occurrence.gaps r) ++
        (right.gaps r ++ (pairs.map Prod.snd).flatMap (Occurrence.gaps r)) := rfl

/-- The gaps of the arguments of a pair of terms are those of the terms. -/
theorem pairGaps_args {pairs : List (Occurrence × Occurrence)} (hl : left.isVar = false)
    (hr : right.isVar = false) (hlength : left.args.length = right.args.length) :
    pairGaps r (left.args.zip right.args ++ pairs) = pairGaps r ((left, right) :: pairs) := by
  rw [pairGaps_cons, pairGaps, List.map_append, List.map_append, List.flatMap_append,
    List.flatMap_append, List.map_fst_zip hlength.le, List.map_snd_zip hlength.ge,
    Occurrence.flatMap_gaps_args hl, Occurrence.flatMap_gaps_args hr]

namespace Pending

variable {others : List Nat} {pending : List (Occurrence × Occurrence)}

/-- The gaps of the first pair are not among those that stand elsewhere. -/
theorem nodup_cons (h : Pending r s others entered ((left, right) :: pending)) :
    (left.gaps r ++ right.gaps r).Nodup ∧ (pairGaps r pending ++ others).Nodup ∧
      ∀ g ∈ left.gaps r ++ right.gaps r, g ∉ pairGaps r pending ++ others := by
  have hperm : (pairGaps r ((left, right) :: pending) ++ others).Perm
      ((left.gaps r ++ right.gaps r) ++ (pairGaps r pending ++ others)) := by
    rw [List.perm_iff_count]
    intro g
    rw [pairGaps_cons]
    simp only [pairGaps, List.count_append]
    omega
  obtain ⟨hpair, hrest, hdisjoint⟩ := List.nodup_append.1 (hperm.nodup_iff.1 h.nodup)
  exact ⟨hpair, hrest, fun g hg hmem => hdisjoint g hg g hmem rfl⟩

/-- The gaps of the first pair, and those that stand elsewhere, are loose. -/
theorem loose_cons (h : Pending r s others entered ((left, right) :: pending)) :
    (∀ g ∈ left.gaps r ++ right.gaps r, Loose r s g) ∧
      ∀ g ∈ pairGaps r pending ++ others, Loose r s g := by
  have hloose := h.loose
  rw [pairGaps_cons] at hloose
  simp only [pairGaps, List.mem_append] at hloose ⊢
  grind

/-- The first pair is solved, and the gaps that stand elsewhere are still loose. -/
theorem tail {t : Substitution} (h : Pending r s others entered ((left, right) :: pending))
    (hloose : ∀ g ∈ pairGaps r pending ++ others, Loose r t g) :
    Pending r t others entered pending where
  fits p hp := h.fits p (List.mem_cons_of_mem _ hp)
  fitsEntered := h.fitsEntered
  nodup := h.nodup_cons.2.1
  loose := hloose
  left := h.left.tail
  right := h.right.tail
  apart _ hleft hright := h.apart (List.mem_append_right _ hleft) (List.mem_append_right _ hright)

/-- What was entered, and ends where the first of what is left to be met ends, is the same. -/
theorem eq_of_distinct {xs ys : List Occurrence} {o : Occurrence}
    {top : Nat} (hr : r.Covers top) (hdistinct : Occurrence.Distinct (xs.map (Occurrence.readBy r))
      (left.readBy r :: ys)) (hmet : Met r s s' left) (ho : o ∈ xs) (hfits : o.term.Fits r)
    (heq : o.readBy r = (s'.deref left).readBy r) : o = s'.deref left := by
  have hgaps : (s'.deref left).gaps r = [] := by
    rcases hmet.self with hself | hgaps
    · have hmem : left.readBy r ∈ xs.map (Occurrence.readBy r) := by
        rw [← hself, ← heq]
        exact List.mem_map_of_mem ho
      have hfree : (left.term.readBy r).isAnonymousFree := hdistinct.isAnonymousFree_of_mem hmem
      have hfitsLeft := hmet.fits
      rw [hself] at hfitsLeft ⊢
      exact hfitsLeft.isAnonymousFree_readBy.1 hfree
    · exact hgaps
  exact (Occurrence.eq_of_readBy_eq hr hmet.fits hfits hgaps heq.symm).symm

/-- What both sides of the first pair end at is one occurrence if that is so for the terms for which
they stand: no blank stands on both sides. -/
theorem eq_of_readBy_eq (h : Pending r s' others entered ((left, right) :: pending))
    (hr : r.Covers s.top) (hleft : Met r s s' left) (hright : Met r s s' right)
    (heq : (s'.deref left).readBy r = (s'.deref right).readBy r) :
    s'.deref left = s'.deref right := by
  rcases hleft.self with hself | hgaps
  · rcases hright.self with hself' | hgaps'
    · have hfree : (left.readBy r).term.isAnonymousFree := by
        rw [← Occurrence.blanks_eq_nil_iff]
        refine List.eq_nil_iff_forall_not_mem.2 fun b hb => h.apart (a := b) ?_ ?_
        · exact List.mem_append_left _ hb
        · refine List.mem_append_left _ ?_
          rwa [← hself', ← heq, hself]
      have hfits := hleft.fits
      refine Occurrence.eq_of_readBy_eq hr hfits hright.fits ?_ heq
      rw [hself] at hfits ⊢
      exact hfits.isAnonymousFree_readBy.1 hfree
    · exact (Occurrence.eq_of_readBy_eq hr hright.fits hleft.fits hgaps' heq.symm).symm
  · exact Occurrence.eq_of_readBy_eq hr hleft.fits hright.fits hgaps heq

/-- What the places of the first pair tell is read off the terms for which it stands. -/
theorem seenAlike (h : Pending r s' others entered ((left, right) :: pending))
    (hr : r.Covers s.top) (hleft : Met r s s' left) (hright : Met r s s' right) :
    SeenAlike r s s' entered left right := by
  refine ⟨?_, ?_⟩
  · rw [hleft.read, hright.read, Bool.eq_iff_iff, Layout.met_byOccurrence_iff,
      Layout.met_byOccurrence_iff, Occurrence.isCompound_readBy, Occurrence.isCompound_readBy,
        List.mem_map]
    refine and_congr_right fun _ => and_congr_right fun _ => ⟨?_, fun hmem => ⟨_, hmem, rfl⟩⟩
    rintro ⟨⟨a, b⟩, hp, heq⟩
    obtain ⟨ha, hb⟩ := Prod.mk.inj heq
    obtain ⟨hfitsa, hfitsb⟩ := h.fitsEntered _ hp
    obtain rfl := eq_of_distinct hr h.left hleft (List.mem_map_of_mem hp) hfitsa ha
    obtain rfl := eq_of_distinct hr h.right hright (List.mem_map_of_mem hp) hfitsb hb
    exact hp
  · rw [hleft.read, hright.read, Bool.eq_iff_iff, Layout.drops_byOccurrence_iff,
      Layout.drops_byOccurrence_iff, Occurrence.isCompound_readBy]
    exact and_congr_right fun _ =>
      ⟨h.eq_of_readBy_eq hr hleft hright, congrArg (Occurrence.readBy r)⟩

/-- The first pair is replaced by its arguments. -/
theorem descend (h : Pending r s' others entered ((left, right) :: pending))
    (hleft : Met r s s' left) (hright : Met r s s' right)
    (hlength : (s'.deref left).args.length = (s'.deref right).args.length) (remember : Bool) :
    Pending r s' others
      (if remember then (s'.deref left, s'.deref right) :: entered else entered)
      ((s'.deref left).args.zip (s'.deref right).args ++ pending) := by
  have hgaps : pairGaps r ((s'.deref left).args.zip (s'.deref right).args ++ pending) =
      pairGaps r ((left, right) :: pending) := by
    rw [pairGaps_args hleft.node hright.node hlength, pairGaps_cons, pairGaps_cons, hleft.gaps,
      hright.gaps]
  have henterLeft := h.left.enter hleft.self_readBy ((Occurrence.isVar_readBy _).trans hleft.node)
  have henterRight := h.right.enter hright.self_readBy
    ((Occurrence.isVar_readBy _).trans hright.node)
  rw [Occurrence.args_readBy] at henterLeft henterRight
  have hargs := Occurrence.forall_zip_args (motive := fun t => t.Fits r) Term.Fits.of_mem_args
    hleft.fits hright.fits
  refine ⟨List.forall_mem_append.2 ⟨hargs, fun p hp => h.fits p (List.mem_cons_of_mem _ hp)⟩,
    ?_, by rw [hgaps]; exact h.nodup, by rw [hgaps]; exact h.loose, ?_, ?_, ?_⟩
  · split
    · exact List.forall_mem_cons.2 ⟨⟨hleft.fits, hright.fits⟩, h.fitsEntered⟩
    · exact h.fitsEntered
  · rw [List.map_append, List.map_append, List.map_fst_zip hlength.le]
    cases remember with
    | true => exact henterLeft
    | false => exact henterLeft.forget
  · rw [List.map_append, List.map_append, List.map_snd_zip hlength.ge]
    cases remember with
    | true => exact henterRight
    | false => exact henterRight.forget
  · rw [List.map_append, List.map_append, List.map_append, List.map_append,
      List.map_fst_zip hlength.le, List.map_snd_zip hlength.ge, List.flatMap_append,
      List.flatMap_append]
    intro b hbleft hbright
    rw [List.mem_append] at hbleft hbright
    exact h.apart (List.mem_append.2 (hbleft.imp_left (hleft.blanks_args ·)))
      (List.mem_append.2 (hbright.imp_left (hright.blanks_args ·)))

end Pending

section Bindings

variable {others : List Nat} {pending : List (Occurrence × Occurrence)} {v v' : Var}

/-- Binding a variable with a slot extends the substitution at the slot. -/
theorem bind_of_index (hindex : v.index = some k) : s.bind v value = s.extend k value := by
  rw [bind, hindex]

/-- A binding that only the second unification makes. -/
theorem StepReads.fills (h : Tracks r s s')
    (hpending : Pending r s' others entered ((left, right) :: pending))
    (hreads : StepReads r s s' (left.gaps r ++ right.gaps r) .skip (.bind v value))
    (htreats : s'.Treats .byOccurrence occursCheck entered left right (.bind v value)) :
    Tracks r s (s'.bind v value) ∧ Pending r (s'.bind v value) others entered pending := by
  obtain ⟨_, _, hapart⟩ := hpending.nodup_cons
  obtain ⟨hpair, hrest⟩ := hpending.loose_cons
  obtain ⟨hsettled, hfree⟩ := htreats.bind_free h.settles'
  obtain ⟨_, hself⟩ := htreats.bind_named
  cases hreads with
  | @fill _ _ g hindex hgap hfits hvalue =>
    rw [bind_of_index hindex]
    refine ⟨h.fill (hpair g hgap) hsettled (hself g hindex) hfits, hpending.tail fun x hx => ?_⟩
    refine (hrest x hx).extend h.settles' (hfree g hindex) hsettled (hself g hindex) ?_ fun hslot =>
      ?_
    · rintro rfl
      exact hapart x hgap hx
    · rcases hvalue x hslot with hmem | ⟨m, hm⟩
      · exact hapart x hmem hx
      · exact hm.ne_of_loose (hrest x hx) rfl
  | @lend _ _ g k' k hindex hstands hslot hgap hfits =>
    rw [bind_of_index hindex]
    refine ⟨h.lend hstands (hpair g hgap) hslot hfits, hpending.tail fun x hx => ?_⟩
    refine (hrest x hx).extend h.settles' (hfree k' hindex) hsettled (hself k' hindex)
      (hstands.ne_of_loose (hrest x hx)).symm ?_
    rw [hslot]
    rintro ⟨⟩
    exact hapart g hgap hx

/-- A binding that both unifications make, to a value without blanks. -/
theorem StepReads.binds (h : Tracks r s s')
    (hpending : Pending r s' others entered ((left, right) :: pending))
    (hreads : StepReads r s s' (left.gaps r ++ right.gaps r) (.bind v value) (.bind v' value'))
    {entered₁ : List (Occurrence × Occurrence)} {left₁ right₁ : Occurrence}
    (htreats : s.Treats .byOccurrence occursCheck entered₁ left₁ right₁ (.bind v value))
    (htreats' : s'.Treats .byOccurrence occursCheck entered left right (.bind v' value'))
    (hplain : value.term.isAnonymousFree) :
    Tracks r (s.bind v value) (s'.bind v' value') ∧
      Pending r (s'.bind v' value') others entered pending := by
  obtain ⟨_, hrest⟩ := hpending.loose_cons
  obtain ⟨hsettled, _⟩ := htreats.bind_free h.settles
  obtain ⟨_, hself⟩ := htreats.bind_named
  obtain ⟨hsettled', hfree'⟩ := htreats'.bind_free h.settles'
  obtain ⟨_, hself'⟩ := htreats'.bind_named
  cases hreads with
  | @bind _ _ _ _ k' k hindex hindex' hstands hfits halike hvalue =>
    rw [bind_of_index hindex, bind_of_index hindex']
    refine ⟨h.extend hstands hsettled hsettled' (hself k hindex) (hself' k' hindex') hplain hfits
      halike hvalue, hpending.tail fun x hx => ?_⟩
    refine (hrest x hx).extend h.settles' (hfree' k' hindex') hsettled' (hself' k' hindex')
      (hstands.ne_of_loose (hrest x hx)).symm fun hslot' => ?_
    obtain ⟨m, hslot⟩ := halike.exists_slot? hslot'
    exact (hvalue hslot hslot').ne_of_loose (hrest x hx) rfl

end Bindings

end Substitution

namespace Store

variable {σ τ : Store} {c : Context}

/-- No value in the store has a blank. -/
def Plain (σ : Store) : Prop := ∀ b ∈ σ.entries, b.value.term.isAnonymousFree

/-- Blanks do not vanish from a store that is only added to. -/
theorem Grows.plain (h : σ.Grows τ) (hτ : τ.Plain) : σ.Plain := by
  intro b hb
  obtain ⟨i, hi, rfl⟩ := Array.mem_iff_getElem.1 hb
  refine hτ _ (Array.mem_of_getElem? (i := i) ?_)
  rw [← h.agree i hi, Array.getElem?_eq_getElem hi]

/-- The bindings on a chain are in the store. -/
theorem exists_mem_entries_of_mem_chain {stamp : Nat} {binding : Nat × Occurrence}
    (h : binding ∈ σ.chain stamp) : ∃ b ∈ σ.entries, b.value = binding.2 := by
  fun_induction chain σ stamp with
  | case1 | case3 => cases h
  | case2 stamp hlt b ih =>
    rcases List.mem_cons.1 h with rfl | h
    · exact ⟨_, Array.getElem_mem hlt, rfl⟩
    · exact ih h

/-- The substitutions in a store without blanks have none. -/
theorem Plain.substitution (h : σ.Plain) (c : Context) :
    ∀ binding ∈ (σ.substitution c).bindings, binding.2.term.isAnonymousFree := by
  intro binding hmem
  obtain ⟨b, hb, hvalue⟩ := exists_mem_entries_of_mem_chain hmem
  rw [← hvalue]
  exact h b hb

end Store

namespace Unified

/-- No value has a blank in the store that a unification leaves. -/
def Plain : Unified → Prop
  | .unified σ _ | .clash σ => σ.Plain
  | .unfinished => True

/-- What a unification that ends leaves without blanks had none before. -/
theorem Realizes.plain {σ : Store} {u : Unified} {v : Verdict} (h : u.Realizes σ v) (hu : u.Plain)
    (hends : u ≠ .unfinished) : σ.Plain := by
  cases u with
  | unfinished => exact absurd rfl hends
  | clash τ => exact h.grows.plain hu
  | unified τ d =>
    cases v with
    | unified s => exact h.1.plain hu
    | clash | unfinished => exact h.elim

/-- The second unification ends as the first, unless the first does not end. The gaps that stand
elsewhere are loose afterwards. -/
def Reads (r : Reading) (others : List Nat) : Unified → Verdict → Prop
  | .unified σ c, .unified s' =>
    Substitution.Tracks r (σ.substitution c) s' ∧ ∀ g ∈ others, Substitution.Loose r s' g
  | .clash _, .clash => True
  | .unfinished, _ => True
  | _, _ => False

end Unified

namespace Store

open Substitution

variable {r : Reading} {σ : Store} {c : Context} {s' : Substitution} {occursCheck : Bool}
  {others : List Nat}

/-- A unification with variables for the gaps ends as the unification for which it stands, if the
latter puts no blanks into the store. -/
theorem unifyPairs_reads {steps : Nat} {entered pending : List (Occurrence × Occurrence)}
    (hc : σ.Holds c) (h : Tracks r (σ.substitution c) s')
    (hpending : Pending r s' others entered pending)
    (hplain : (unifyPairs .byOccurrence occursCheck steps σ c (entered.map (readPair r))
      (pending.map (readPair r))).Plain) :
    (unifyPairs .byOccurrence occursCheck steps σ c (entered.map (readPair r))
      (pending.map (readPair r))).Reads
      r others (s'.unifyPairs .byOccurrence occursCheck steps entered pending) := by
  induction steps generalizing σ c s' entered pending with
  | zero =>
    cases pending with
    | nil => exact ⟨h, hpending.loose⟩
    | cons pair pending => trivial
  | succ steps ih =>
    cases pending with
    | nil => exact ⟨h, hpending.loose⟩
    | cons pair pending =>
      obtain ⟨left, right⟩ := pair
      obtain ⟨⟨hl, hr⟩, -⟩ := List.forall_mem_cons.1 hpending.fits
      obtain ⟨hnodup, -, hapart⟩ := hpending.nodup_cons
      obtain ⟨hpair, hrest⟩ := hpending.loose_cons
      obtain ⟨hlooseLeft, hlooseRight⟩ := List.forall_mem_append.1 hpair
      have hreads := h.pairStep_reads occursCheck hl hr hnodup hpair
        fun hleft hright => hpending.seenAlike h.covers hleft hright
      have htreats := (σ.substitution c).treats_pairStep .byOccurrence occursCheck
        (entered.map (readPair r))
        (left.readBy r) (right.readBy r)
      have htreats' := s'.treats_pairStep .byOccurrence occursCheck entered left right
      rw [List.map_cons, readPair, unifyPairs_cons (deref_eq h.settles)] at hplain ⊢
      rw [Substitution.unifyPairs]
      dsimp only at hplain ⊢
      generalize (σ.substitution c).pairStep .byOccurrence occursCheck (entered.map (readPair r))
        (left.readBy r) (right.readBy r) = step at hreads htreats hplain ⊢
      generalize s'.pairStep .byOccurrence occursCheck entered left right =
        step' at hreads htreats' ⊢
      cases hreads with
      | skip => exact ih hc h (hpending.tail hpending.loose_cons.2) hplain
      | clash => trivial
      | fill hindex hgap hfits hvalue =>
        obtain ⟨htracks, hnext⟩ :=
          StepReads.fills h hpending (.fill hindex hgap hfits hvalue) htreats'
        exact ih hc htracks hnext hplain
      | lend hindex hstands hslot hgap hfits =>
        obtain ⟨htracks, hnext⟩ :=
          StepReads.fills h hpending (.lend hindex hstands hslot hgap hfits) htreats'
        exact ih hc htracks hnext hplain
      | @bind v v' value value' k' k hindex hindex' hstands hfits halike hvalue =>
        obtain ⟨hgrows, hd, hsubst⟩ := bind_of_treats hc htreats
        have hsettles := htreats.settles_bind h.settles
        dsimp only at hplain ⊢
        rw [← hsubst] at hsettles
        have hrealizes := unifyPairs_realizes hd hsettles .byOccurrence occursCheck steps
          (entered.map (readPair r)) (pending.map (readPair r))
        by_cases hends : unifyPairs .byOccurrence occursCheck steps (σ.bind c v value).1
          (σ.bind c v value).2
            (entered.map (readPair r)) (pending.map (readPair r)) = .unfinished
        · rw [hends]
          trivial
        have hbound : value.term.isAnonymousFree :=
          (hrealizes.plain hplain hends).substitution _ (k, value)
            (by rw [hsubst, bind_of_index hindex]; exact List.mem_cons_self)
        obtain ⟨htracks, hnext⟩ := StepReads.binds h hpending
          (.bind hindex hindex' hstands hfits halike hvalue) htreats htreats' hbound
        rw [← hsubst] at htracks
        exact ih hd htracks hnext hplain
      | @descend l r remember =>
        cases htreats' with
        | descend hterm hterm' hlength =>
          have hmet := h.met hl hlooseLeft (by rw [Occurrence.isVar, hterm])
          have hmet' := h.met hr hlooseRight (by rw [Occurrence.isVar, hterm'])
          have hargs : (s'.deref left).args.length = (s'.deref right).args.length := by
            rw [Occurrence.length_args, Occurrence.length_args, hterm, hterm']
            exact hlength
          have hnext := ih hc h (hpending.descend hmet hmet' hargs remember)
          rw [map_readPair_args, apply_ite (List.map (readPair r))] at hnext
          exact hnext hplain

end Store

end ClauseResolution
