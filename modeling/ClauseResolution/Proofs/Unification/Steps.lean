import ClauseResolution.Proofs.Substitution.Reach
import ClauseResolution.Term.Equality
import ClauseResolution.Unification.Basic
import Mathlib.Tactic.SplitIfs

/-!
# Steps of a unification

One step of a unification looks at a pair of occurrences and drops the pair, refuses it,
binds a variable or goes on with the arguments. `Treats` says once under what conditions
each of these happens; every later property of unification is read off it. Unification on
a store is unification on the substitution that the store holds, as long as following
variables ends, and this remains so until the last step. More steps do not change the
end of a unification.
-/

namespace ClauseResolution

/-- What a pair of occurrences calls for. -/
inductive PairStep
  /-- The pair is solved. -/
  | skip
  /-- The pair cannot be solved. -/
  | clash
  /-- The pair is solved by binding a variable. -/
  | bind (v : Var) (value : Occurrence)
  /-- The pair is solved when the arguments are, and may have to be remembered. -/
  | descend (left right : Occurrence) (remember : Bool)

/-- How a unification ends, apart from the store. -/
inductive Verdict
  /-- The terms are equal under this substitution. -/
  | unified (s : Substitution)
  /-- The terms cannot be made equal. -/
  | clash
  /-- The steps granted did not suffice. -/
  | unfinished

/-- What is no variable has no slot. -/
theorem Occurrence.slot?_of_isVar_eq_false {o : Occurrence} (h : o.isVar = false) :
    o.slot? = none := by
  obtain ⟨text, node, term⟩ := o
  cases term with
  | var v => simp [isVar] at h
  | atom | number | compound => rfl

/-- Where no variable stands, the term is none. -/
theorem Occurrence.ne_var {o : Occurrence} (h : o.isVar = false) (v : Var) : o.term ≠ .var v := by
  intro hterm
  simp [isVar, hterm] at h

/-- A term that is none stands where no variable does. -/
theorem Occurrence.isVar_eq_false {o : Occurrence} (h : ∀ v, o.term ≠ .var v) :
    o.isVar = false := by
  obtain ⟨text, node, term⟩ := o
  cases term with
  | var v => exact absurd rfl (h v)
  | atom | number | compound => rfl

/-- Where a compound term stands, no variable does. -/
theorem Occurrence.isVar_of_isCompound {o : Occurrence} (h : o.isCompound = true) :
    o.isVar = false := by
  obtain ⟨text, node, term⟩ := o
  cases term with
  | compound => rfl
  | atom | number | var => cases h

namespace Layout

variable {layout : Layout} {l r : Occurrence}

/-- No pair is dropped at a glance. -/
def plain : Layout := byTerm.glancing false

/-- Without a glance nothing is dropped at one. -/
@[simp] theorem drops_plain (l r : Occurrence) : plain.drops l r = false := rfl

/-- At the start no pair was entered. -/
@[simp] theorem met_nil (layout : Layout) (l r : Occurrence) : layout.met [] l r = false := rfl

/-- Where every occurrence is stored by itself, only an occurrence is dropped against itself. -/
theorem drops_byOccurrence_iff :
    byOccurrence.drops l r = true ↔ l.isCompound = true ∧ l = r := by
  rw [drops, shares, Bool.and_eq_true, Bool.and_eq_true, Bool.and_eq_true, beq_iff_eq]
  constructor
  · rintro ⟨_, ⟨hl, _⟩, heq⟩
    exact ⟨hl, heq⟩
  · rintro ⟨hl, heq⟩
    exact ⟨rfl, ⟨hl, heq ▸ hl⟩, heq⟩

/-- Where every occurrence is stored by itself, only the pairs that were entered were met. -/
theorem met_byOccurrence_iff {entered : List (Occurrence × Occurrence)} :
    byOccurrence.met entered l r = true ↔
      l.isCompound = true ∧ r.isCompound = true ∧ (l, r) ∈ entered := by
  have hshares : ∀ {a b : Occurrence},
      byOccurrence.shares a b = true ↔ b.isCompound = true ∧ a = b := fun {a b} => by
    have hiff : byOccurrence.shares a b = true ↔ a.isCompound = true ∧ a = b :=
      drops_byOccurrence_iff
    exact hiff.trans ⟨fun ⟨h, heq⟩ => ⟨heq ▸ h, heq⟩, fun ⟨h, heq⟩ => ⟨heq ▸ h, heq⟩⟩
  simp only [met, List.any_eq_true, Bool.and_eq_true, hshares]
  constructor
  · rintro ⟨⟨a, b⟩, hmem, ⟨hl, rfl⟩, hr, rfl⟩
    exact ⟨hl, hr, hmem⟩
  · rintro ⟨hl, hr, hmem⟩
    exact ⟨_, hmem, ⟨hl, rfl⟩, hr, rfl⟩

/-- What is dropped at a glance is one term. -/
theorem term_eq_of_drops (h : layout.drops l r = true) : l.term = r.term :=
  term_eq_of_shares (Bool.and_eq_true_iff.1 h).2

/-- Only compound terms are dropped at a glance. -/
theorem isCompound_of_drops (h : layout.drops l r = true) :
    l.isCompound = true ∧ r.isCompound = true := by
  simp only [drops, shares, Bool.and_eq_true] at h
  exact h.2.1

/-- Compound terms in a pair that was entered are in the place in which they were then. -/
theorem met_of_mem {entered : List (Occurrence × Occurrence)} (hmem : (l, r) ∈ entered)
    (hl : l.isCompound = true) (hr : r.isCompound = true) : layout.met entered l r = true :=
  List.any_eq_true.2 ⟨(l, r), hmem, by simp [shares, hl, hr]⟩

/-- Two sides that were met are the terms of a pair that was entered. -/
theorem exists_mem_of_met {entered : List (Occurrence × Occurrence)}
    (h : layout.met entered l r = true) : ∃ p ∈ entered, p.1.term = l.term ∧ p.2.term = r.term := by
  obtain ⟨p, hp, hshares⟩ := List.any_eq_true.1 h
  obtain ⟨hleft, hright⟩ := Bool.and_eq_true_iff.1 hshares
  exact ⟨p, hp, term_eq_of_shares hleft, term_eq_of_shares hright⟩

end Layout

/-- Variables with different slots differ. -/
theorem Var.same_of_index_ne {v w : Var} {i j : Nat} (hv : v.index = some i)
    (hw : w.index = some j) (hne : i ≠ j) : v.same w = false := by
  simpa [same, hv, hw] using hne

namespace Substitution

variable {s : Substitution}

/-- A variable occurs free in a term under the substitution. -/
def occurs (s : Substitution) (v : Var) (t : Term) : Bool := s.store.occurs s.context v t

/-- Binds a variable, unless it has no slot. -/
def bind (s : Substitution) (v : Var) (value : Occurrence) : Substitution :=
  match v.index with
  | none => s
  | some slot => s.extend slot value

/-- What the next pair calls for. -/
def pairStep (s : Substitution) (layout : Layout) (occursCheck : Bool)
    (entered : List (Occurrence × Occurrence)) (rawLeft rawRight : Occurrence) : PairStep :=
  if layout.sameReference rawLeft rawRight then .skip
  else
    let left := s.deref rawLeft
    let right := s.deref rawRight
    match left.term, right.term with
    | .atom a, .atom b => if a == b then .skip else .clash
    | .number m, .number n => if m.same n then .skip else .clash
    | .compound f as _, .compound g bs _ =>
      if layout.drops left right then .skip
      else if f == g && as.length == bs.length then
        if !occursCheck && (rawLeft.isVar || rawRight.isVar) then
          if layout.met entered left right then .skip else .descend left right true
        else .descend left right false
      else .clash
    | .var v, .var w =>
      if v.isAnonymous || w.isAnonymous || v.same w then .skip else .bind v right
    | .var v, other =>
      if v.isAnonymous then .skip
      else if occursCheck && s.occurs v other then .clash
      else .bind v right
    | other, .var v =>
      if v.isAnonymous then .skip
      else if occursCheck && s.occurs v other then .clash
      else .bind v left
    | _, _ => .clash

/-- Solves pending pairs within a number of steps. -/
def unifyPairs (layout : Layout) (occursCheck : Bool) :
    Nat → Substitution → List (Occurrence × Occurrence) → List (Occurrence × Occurrence) → Verdict
  | _, s, _, [] => .unified s
  | 0, _, _, _ :: _ => .unfinished
  | steps + 1, s, entered, (rawLeft, rawRight) :: pending =>
    match s.pairStep layout occursCheck entered rawLeft rawRight with
    | .skip => unifyPairs layout occursCheck steps s entered pending
    | .clash => .clash
    | .bind v value => unifyPairs layout occursCheck steps (s.bind v value) entered pending
    | .descend left right remember =>
      unifyPairs layout occursCheck steps s (if remember then (left, right) :: entered else entered)
        (left.args.zip right.args ++ pending)

section PairSteps

variable {layout : Layout} {occursCheck : Bool} {entered : List (Occurrence × Occurrence)}
  {left right : Occurrence} {v w : Var}

/-- What one reference stands on both sides of is skipped. -/
theorem pairStep_of_sameReference (h : layout.sameReference left right = true) :
    s.pairStep layout occursCheck entered left right = .skip := by
  rw [pairStep, if_pos h]

/-- Both sides are the same atom, or indexed variables of one slot. -/
theorem pairStep_of_constant (h : left.term.sameConstant right.term = true) :
    s.pairStep layout occursCheck entered left right = .skip :=
  pairStep_of_sameReference (by rw [Layout.sameReference, h, Bool.true_or])

/-- A compound term is followed nowhere. -/
theorem deref_of_isCompound {o : Occurrence} (h : o.isCompound = true) : s.deref o = o :=
  deref_of_settled (by
    rw [Settled, follow, Occurrence.slot?_of_isVar_eq_false (Occurrence.isVar_of_isCompound h),
      Option.bind_none])

/-- Where a side is followed to a variable, nothing is dropped at a glance. -/
theorem sameReference_of_var
    (h : (s.deref left).term = .var v ∨ (s.deref right).term = .var v) :
    layout.sameReference left right = left.term.sameConstant right.term := by
  have hdrops : layout.drops left right = false := by
    rw [Bool.eq_false_iff]
    intro hdrops
    obtain ⟨hleft, hright⟩ := Layout.isCompound_of_drops hdrops
    rw [deref_of_isCompound hleft, deref_of_isCompound hright] at h
    rcases h with hterm | hterm
    · simp [Occurrence.isCompound, hterm, Term.toCompound?] at hleft
    · simp [Occurrence.isCompound, hterm, Term.toCompound?] at hright
  rw [Layout.sameReference, hdrops, Bool.or_false]

/-- Two variables are skipped or bound to each other. -/
theorem pairStep_of_vars (hconstant : left.term.sameConstant right.term = false)
    (hl : (s.deref left).term = .var v) (hr : (s.deref right).term = .var w) :
    s.pairStep layout occursCheck entered left right =
      if v.isAnonymous || w.isAnonymous || v.same w then .skip else .bind v (s.deref right) := by
  rw [pairStep, sameReference_of_var (Or.inl hl), hconstant]
  simp only [hl, hr, Bool.false_eq_true, if_false]

/-- A variable is bound to a term on the right, if it may be. -/
theorem pairStep_of_left (hl : (s.deref left).term = .var v)
    (hr : (s.deref right).isVar = false) (hconstant : left.term.sameConstant right.term = false) :
    s.pairStep layout occursCheck entered left right =
      if v.isAnonymous then .skip
      else if occursCheck && s.occurs v (s.deref right).term then .clash
      else .bind v (s.deref right) := by
  rw [pairStep, sameReference_of_var (Or.inl hl), hconstant]
  simp only [hl, Bool.false_eq_true, if_false]
  rw [Occurrence.isVar] at hr
  cases hterm : (s.deref right).term with
  | var w => simp [hterm] at hr
  | atom | number | compound => rfl

/-- A variable is bound to a term on the left, if it may be. -/
theorem pairStep_of_right (hl : (s.deref left).isVar = false)
    (hr : (s.deref right).term = .var v) (hconstant : left.term.sameConstant right.term = false) :
    s.pairStep layout occursCheck entered left right =
      if v.isAnonymous then .skip
      else if occursCheck && s.occurs v (s.deref left).term then .clash
      else .bind v (s.deref left) := by
  rw [pairStep, sameReference_of_var (Or.inr hr), hconstant]
  simp only [hr, Bool.false_eq_true, if_false]
  rw [Occurrence.isVar] at hl
  cases hterm : (s.deref left).term with
  | var w => simp [hterm] at hl
  | atom | number | compound => rfl

/-- Where the anonymous variable stands nothing is asked for. -/
theorem pairStep_of_anonymous
    (h : (s.deref left).term = .var v ∨ (s.deref right).term = .var v) (hv : v.isAnonymous = true) :
    s.pairStep layout occursCheck entered left right = .skip := by
  rw [pairStep]
  split
  · rfl
  · rcases h with hl | hr
    · cases hr : (s.deref right).term <;> simp [hl, hr, hv]
    · cases hl : (s.deref left).term <;> simp [hl, hr, hv]

/-- What was entered, and where terms are stored, decides only whether a pair is dropped. -/
theorem pairStep_eq (s : Substitution) (layout : Layout) (occursCheck : Bool)
    (entered : List (Occurrence × Occurrence)) (left right : Occurrence) :
    s.pairStep layout occursCheck entered left right =
      if layout.drops left right then .skip
      else
        match s.pairStep .plain occursCheck [] left right with
        | .descend a b remember =>
          if layout.drops a b then .skip
          else if remember && layout.met entered a b then .skip
          else .descend a b remember
        | step => step := by
  rw [pairStep, pairStep, Layout.sameReference, Layout.sameReference]
  simp only [Layout.drops_plain, Layout.met_nil, Bool.or_false, Bool.false_eq_true, if_false]
  cases layout.drops left right with
  | true => simp
  | false =>
    cases left.term.sameConstant right.term with
    | true => rfl
    | false =>
      -- What is dropped is one term: its functors and numbers of arguments agree.
      have hdrops : layout.drops (s.deref left) (s.deref right) = true →
          (s.deref left).term = (s.deref right).term := Layout.term_eq_of_drops
      simp only [Bool.or_self, Bool.false_eq_true, if_false]
      cases hl : (s.deref left).term <;> cases hr : (s.deref right).term <;> dsimp only <;>
        split_ifs <;> simp_all

/-- A pair is skipped, or it calls for what it calls for at the start without a glance. -/
theorem pairStep_eq_or_skip (s : Substitution) (layout : Layout) (occursCheck : Bool)
    (entered : List (Occurrence × Occurrence)) (left right : Occurrence) :
    s.pairStep layout occursCheck entered left right = .skip ∨
      s.pairStep layout occursCheck entered left right =
        s.pairStep .plain occursCheck [] left right := by
  rw [pairStep_eq s layout]
  split
  · exact Or.inl rfl
  · cases s.pairStep .plain occursCheck [] left right with
    | skip | clash | bind => exact Or.inr rfl
    | descend =>
      dsimp only
      split_ifs
      · exact Or.inl rfl
      · exact Or.inl rfl
      · exact Or.inr rfl

end PairSteps

/-- The reasons for what a pair of occurrences calls for. -/
inductive Treats (s : Substitution) (layout : Layout) (occursCheck : Bool)
    (entered : List (Occurrence × Occurrence)) (l r : Occurrence) : PairStep → Prop
  /-- Both sides are the same atom, or indexed variables of one slot. -/
  | constant (h : l.term.sameConstant r.term = true) : Treats s layout occursCheck entered l r .skip
  /-- Both sides are one compound term in one place. -/
  | shared (h : layout.drops (s.deref l) (s.deref r) = true) :
      Treats s layout occursCheck entered l r .skip
  /-- One side is the anonymous variable. -/
  | anonymous {v : Var} (h : (s.deref l).term = .var v ∨ (s.deref r).term = .var v)
      (hv : v.isAnonymous = true) : Treats s layout occursCheck entered l r .skip
  /-- Both sides are one node without arguments. -/
  | leaf (h : (s.deref l).term.sameNode (s.deref r).term = true)
      (hargs : (s.deref l).term.args = []) : Treats s layout occursCheck entered l r .skip
  /-- The pair was entered before. -/
  | met (hcheck : occursCheck = false) (hraw : (l.isVar || r.isVar) = true)
      (hnode : (s.deref l).term.sameNode (s.deref r).term = true)
      (hmet : layout.met entered (s.deref l) (s.deref r) = true) :
      Treats s layout occursCheck entered l r .skip
  /-- Both sides are free variables, and the left one is bound to the right one. -/
  | link {v w : Var} (hl : (s.deref l).term = .var v) (hr : (s.deref r).term = .var w)
      (hv : v.isAnonymous = false) (hw : w.isAnonymous = false) (hsame : v.same w = false) :
      Treats s layout occursCheck entered l r (.bind v (s.deref r))
  /-- One side is a free variable, and is bound to the other, which is none. -/
  | assign {a b : Occurrence} {v : Var}
      (hside : a = s.deref l ∧ b = s.deref r ∨ a = s.deref r ∧ b = s.deref l)
      (ha : a.term = .var v) (hb : b.isVar = false) (hv : v.isAnonymous = false)
      (hoccurs : occursCheck = true → s.occurs v b.term = false) :
      Treats s layout occursCheck entered l r (.bind v b)
  /-- One side is a free variable that occurs in the other. -/
  | cyclic {a b : Occurrence} {v : Var}
      (hside : a = s.deref l ∧ b = s.deref r ∨ a = s.deref r ∧ b = s.deref l)
      (ha : a.term = .var v) (hb : b.isVar = false) (hv : v.isAnonymous = false)
      (hcheck : occursCheck = true) (hoccurs : s.occurs v b.term = true) :
      Treats s layout occursCheck entered l r .clash
  /-- Neither side is a variable, and the nodes differ. -/
  | differ (hl : (s.deref l).isVar = false) (hr : (s.deref r).isVar = false)
      (h : (s.deref l).term.sameNode (s.deref r).term = false) :
      Treats s layout occursCheck entered l r .clash
  /-- Both sides are compound terms of one functor and arity. -/
  | descend {functor : String} {as bs : List Term} {m n : Nat} {remember : Bool}
      (hl : (s.deref l).term = .compound functor as m)
      (hr : (s.deref r).term = .compound functor bs n) (hlength : as.length = bs.length)
      (hremember : remember = (!occursCheck && (l.isVar || r.isVar))) :
      Treats s layout occursCheck entered l r (.descend (s.deref l) (s.deref r) remember)

section Reasons

variable {layout : Layout} {occursCheck : Bool} {entered : List (Occurrence × Occurrence)}
  {l r : Occurrence}

/-- Terms that are no variables are refused when their nodes differ. -/
theorem treats_differ (hl : ∀ v, (s.deref l).term ≠ .var v) (hr : ∀ v, (s.deref r).term ≠ .var v)
    (h : ¬ (s.deref l).term.sameNode (s.deref r).term = true) :
    s.Treats layout occursCheck entered l r .clash :=
  .differ (Occurrence.isVar_eq_false hl) (Occurrence.isVar_eq_false hr)
    (Bool.eq_false_of_not_eq_true h)

/-- A free variable that meets a term is bound to it, unless it is anonymous or occurs in it. -/
theorem treats_assign {a b : Occurrence} {v : Var}
    (hside : a = s.deref l ∧ b = s.deref r ∨ a = s.deref r ∧ b = s.deref l)
    (ha : a.term = .var v) (hb : ∀ w, b.term ≠ .var w) :
    s.Treats layout occursCheck entered l r
      (if v.isAnonymous then .skip
      else if occursCheck && s.occurs v b.term then .clash
      else .bind v b) := by
  have hvar : b.isVar = false := Occurrence.isVar_eq_false hb
  split
  · next hv =>
    rcases hside with ⟨rfl, _⟩ | ⟨rfl, _⟩
    · exact .anonymous (Or.inl ha) hv
    · exact .anonymous (Or.inr ha) hv
  · next hv =>
    have hnamed : v.isAnonymous = false := Bool.eq_false_of_not_eq_true hv
    split
    · next h =>
      obtain ⟨hcheck, hoccurs⟩ := Bool.and_eq_true_iff.1 h
      exact .cyclic hside ha hvar hnamed hcheck hoccurs
    · next h => exact .assign hside ha hvar hnamed fun hcheck => by simpa [hcheck] using h

/-- Whatever a pair calls for has its reason. -/
theorem treats_pairStep (s : Substitution) (layout : Layout) (occursCheck : Bool)
    (entered : List (Occurrence × Occurrence)) (l r : Occurrence) :
    s.Treats layout occursCheck entered l r (s.pairStep layout occursCheck entered l r) := by
  unfold pairStep
  split
  · next h =>
    rcases Bool.or_eq_true_iff.1 h with hconstant | hdrops
    · exact .constant hconstant
    · obtain ⟨hleft, hright⟩ := Layout.isCompound_of_drops hdrops
      exact .shared (by rwa [deref_of_isCompound hleft, deref_of_isCompound hright])
  · next hreference =>
    dsimp only
    split
    · next a b hl hr =>
      split
      · next h => exact .leaf (by rw [hl, hr]; exact h) (by rw [hl]; rfl)
      · next h => exact treats_differ (by simp [hl]) (by simp [hr]) (by rw [hl, hr]; exact h)
    · next m n hl hr =>
      split
      · next h => exact .leaf (by rw [hl, hr]; exact h) (by rw [hl]; rfl)
      · next h => exact treats_differ (by simp [hl]) (by simp [hr]) (by rw [hl, hr]; exact h)
    · next f as m g bs n hl hr =>
      split
      · next hdrops => exact .shared hdrops
      split
      · next h =>
        have hnode : (s.deref l).term.sameNode (s.deref r).term = true := by rw [hl, hr]; exact h
        simp only [Bool.and_eq_true, beq_iff_eq] at h
        obtain ⟨rfl, hlength⟩ := h
        split
        · next hraw =>
          obtain ⟨hcheck, hvar⟩ := Bool.and_eq_true_iff.1 hraw
          split
          · next hmet => exact .met (by simpa using hcheck) hvar hnode hmet
          · exact .descend hl hr hlength hraw.symm
        · next hraw => exact .descend hl hr hlength (by simpa using hraw)
      · next h => exact treats_differ (by simp [hl]) (by simp [hr]) (by rw [hl, hr]; exact h)
    · next v w hl hr =>
      split
      · next h =>
        rcases Bool.or_eq_true_iff.1 h with h | hsame
        · rcases Bool.or_eq_true_iff.1 h with hv | hw
          · exact .anonymous (Or.inl hl) hv
          · exact .anonymous (Or.inr hr) hw
        · exact .leaf (by rw [hl, hr]; exact hsame) (by rw [hl]; rfl)
      · next h =>
        simp only [Bool.or_eq_true, not_or, Bool.not_eq_true] at h
        exact .link hl hr h.1.1 h.1.2 h.2
    · next v other hl hother => exact treats_assign (Or.inl ⟨rfl, rfl⟩) hl hother
    · next other v hr hother => exact treats_assign (Or.inr ⟨rfl, rfl⟩) hr hother
    · next hl hr hatoms hnumbers hcompounds hvars =>
      refine treats_differ hl hr fun hnode => ?_
      -- Terms of one node are of one shape, and the shapes that two terms share are all covered.
      cases hleft : (s.deref l).term <;> cases hright : (s.deref r).term <;>
        grind [Term.sameNode]

end Reasons

/-- A variable at which following ends is free. -/
theorem valueAt_of_deref_var (h : s.Settles) {o : Occurrence} {v : Var} {slot : Nat}
    (hterm : (s.deref o).term = .var v) (hindex : v.index = some slot) :
    s.valueAt slot = none := by
  have hsettled : s.follow (s.deref o) = none := h.settled_deref o
  rwa [follow, Occurrence.slot?, hterm, Term.slot?, hindex, Option.bind_some] at hsettled

/-- The binding that a pair calls for is one of a variable that is no anonymous one, and
not to itself. -/
theorem Treats.bind_named {layout : Layout} {occursCheck : Bool}
    {entered : List (Occurrence × Occurrence)}
    {l r : Occurrence} {v : Var} {value : Occurrence}
    (htreats : s.Treats layout occursCheck entered l r (.bind v value)) :
    v.isAnonymous = false ∧ ∀ slot, v.index = some slot → value.slot? ≠ some slot := by
  cases htreats with
  | link hl hr hv hw hsame =>
    refine ⟨hv, fun slot hindex hslot => ?_⟩
    rw [Occurrence.slot?, hr, Term.slot?] at hslot
    simp [Var.same, hindex, hslot] at hsame
  | assign hside ha hb hv hoccurs =>
    refine ⟨hv, fun slot hindex hslot => ?_⟩
    rw [Occurrence.slot?_of_isVar_eq_false hb] at hslot
    cases hslot

/-- The binding that a pair calls for is one of a free variable to a settled
occurrence. -/
theorem Treats.bind_free {layout : Layout} {occursCheck : Bool}
    {entered : List (Occurrence × Occurrence)}
    {l r : Occurrence} {v : Var} {value : Occurrence} (h : s.Settles)
    (htreats : s.Treats layout occursCheck entered l r (.bind v value)) :
    s.Settled value ∧ ∀ slot, v.index = some slot → s.valueAt slot = none := by
  cases htreats with
  | link hl hr hv hw hsame =>
    exact ⟨h.settled_deref r, fun slot hindex => valueAt_of_deref_var h hl hindex⟩
  | assign hside ha hb hv hoccurs =>
    rcases hside with ⟨rfl, rfl⟩ | ⟨rfl, rfl⟩
    · exact ⟨h.settled_deref r, fun slot hindex => valueAt_of_deref_var h ha hindex⟩
    · exact ⟨h.settled_deref l, fun slot hindex => valueAt_of_deref_var h ha hindex⟩

/-- The bindings that pairs call for keep the ends of all walks. -/
theorem Treats.settles_bind {layout : Layout} {occursCheck : Bool}
    {entered : List (Occurrence × Occurrence)}
    {l r : Occurrence} {v : Var} {value : Occurrence} (h : s.Settles)
    (htreats : s.Treats layout occursCheck entered l r (.bind v value)) :
    (s.bind v value).Settles := by
  obtain ⟨hvalue, _⟩ := htreats.bind_free h
  rw [bind]
  cases hindex : v.index with
  | none => exact h
  | some slot => exact h.extend hvalue (htreats.bind_named.2 slot hindex)

/-- What is kept by every binding that a pair calls for is kept by a unification. -/
theorem unifyPairs_keeps {motive : Substitution → Prop} {layout : Layout} {occursCheck : Bool}
    (hbind : ∀ {s : Substitution} {entered : List (Occurrence × Occurrence)} {l r : Occurrence}
      {v : Var} {value : Occurrence}, motive s →
      s.Treats layout occursCheck entered l r (.bind v value) →
        motive (s.bind v value))
    {s s' : Substitution} {steps : Nat} {entered pending : List (Occurrence × Occurrence)}
    (h : motive s) (hunify : s.unifyPairs layout occursCheck steps entered pending = .unified s') :
    motive s' := by
  induction steps generalizing s entered pending with
  | zero =>
    cases pending with
    | nil =>
      cases hunify
      exact h
    | cons => cases hunify
  | succ steps ih =>
    cases pending with
    | nil =>
      cases hunify
      exact h
    | cons pair pending =>
      obtain ⟨l, r⟩ := pair
      have htreats := s.treats_pairStep layout occursCheck entered l r
      rw [unifyPairs] at hunify
      cases hstep : s.pairStep layout occursCheck entered l r with
      | skip | descend => exact ih h (by simpa only [hstep] using hunify)
      | clash => simp [hstep] at hunify
      | bind v value =>
        rw [hstep] at htreats
        exact ih (hbind h htreats) (by simpa only [hstep] using hunify)

/-- A unification that ends does so in the same way when more steps are granted. -/
theorem unifyPairs_mono {layout : Layout} {occursCheck : Bool} {m n : Nat} (hmn : m ≤ n)
    {s : Substitution}
    {entered pending : List (Occurrence × Occurrence)}
    (h : s.unifyPairs layout occursCheck m entered pending ≠ .unfinished) :
    s.unifyPairs layout occursCheck n entered pending =
      s.unifyPairs layout occursCheck m entered pending := by
  induction m generalizing n s entered pending with
  | zero =>
    cases pending with
    | nil => simp only [unifyPairs]
    | cons pair pending => exact absurd rfl h
  | succ m ih =>
    obtain ⟨n, rfl⟩ := Nat.exists_eq_add_of_le' (Nat.one_le_iff_ne_zero.2 (by omega : n ≠ 0))
    cases pending with
    | nil => simp only [unifyPairs]
    | cons pair pending =>
      have hle : m ≤ n := by omega
      rw [unifyPairs] at h ⊢
      rw [unifyPairs]
      cases hstep : s.pairStep layout occursCheck entered pair.1 pair.2 with
      | skip => simp only [hstep] at h ⊢; exact ih hle h
      | clash => rfl
      | bind v value => simp only [hstep] at h ⊢; exact ih hle h
      | descend left right remember => simp only [hstep] at h ⊢; exact ih hle h

end Substitution

/-- A unification that ends does so in the same way when more steps are granted. -/
theorem unifyPairs_mono {layout : Layout} {occursCheck : Bool} {m n : Nat} {σ : Store} {c : Context}
    {entered pending : List (Occurrence × Occurrence)} (hmn : m ≤ n)
    (h : unifyPairs layout occursCheck m σ c entered pending ≠ .unfinished) :
    unifyPairs layout occursCheck n σ c entered pending =
      unifyPairs layout occursCheck m σ c entered pending := by
  induction m generalizing n σ c entered pending with
  | zero =>
    cases pending with
    | nil => simp only [unifyPairs]
    | cons pair pending => exact absurd rfl h
  | succ m ih =>
    obtain ⟨n, rfl⟩ := Nat.exists_eq_add_of_le' (Nat.one_le_iff_ne_zero.2 (by omega : n ≠ 0))
    cases pending with
    | nil => simp only [unifyPairs]
    | cons pair pending =>
      obtain ⟨l, r⟩ := pair
      have hle : m ≤ n := by omega
      rw [unifyPairs] at h ⊢
      rw [unifyPairs]
      by_cases hreference : layout.sameReference l r = true
      · rw [if_pos hreference] at h ⊢
        rw [if_pos hreference]
        exact ih hle h
      · rw [if_neg hreference] at h ⊢
        rw [if_neg hreference]
        -- Whatever the two sides are, the pair is refused or what is left is unified.
        revert h
        dsimp only
        cases (σ.deref c l).term <;> cases (σ.deref c r).term <;> dsimp only <;>
          (try split_ifs) <;> intro h <;> first | rfl | exact ih hle h

/-- A unification on a store does what one on the substitution does: the store is only
added to, and following variables ends in the result. -/
def Unified.Realizes (σ : Store) : Unified → Verdict → Prop
  | .unified τ d, .unified s => σ.Grows τ ∧ τ.Holds d ∧ τ.substitution d = s ∧ s.Settles
  | .clash τ, .clash => σ.Grows τ
  | .unfinished, .unfinished => True
  | _, _ => False

/-- Adding to a store before a unification is adding to it. -/
theorem Unified.Realizes.of_grows {σ τ : Store} {u : Unified} {v : Verdict} (h : σ.Grows τ)
    (hrealizes : u.Realizes τ v) : u.Realizes σ v := by
  cases u <;> cases v <;> try exact hrealizes
  · obtain ⟨hgrows, hrest⟩ := hrealizes
    exact ⟨h.trans hgrows, hrest⟩
  · exact h.trans hrealizes

/-- How a unification ends, apart from the store. -/
def Unified.verdict : Unified → Verdict
  | .unified σ c => .unified (σ.substitution c)
  | .clash _ => .clash
  | .unfinished => .unfinished

/-- What realizes a verdict has it. -/
theorem Unified.Realizes.verdict_eq {σ : Store} {u : Unified} {v : Verdict} (h : u.Realizes σ v) :
    u.verdict = v := by
  cases u <;> cases v <;> try exact h.elim
  · obtain ⟨_, _, rfl, _⟩ := h
    rfl
  · rfl
  · rfl

/-- What realizes a substitution is a store that has grown and a context with it. -/
theorem Unified.Realizes.exists_unified {σ : Store} {u : Unified} {s : Substitution}
    (h : u.Realizes σ (.unified s)) :
    ∃ τ d, u = .unified τ d ∧ σ.Grows τ ∧ τ.Holds d ∧ τ.substitution d = s ∧ s.Settles := by
  cases u with
  | unified τ d => exact ⟨τ, d, rfl, h⟩
  | clash | unfinished => exact h.elim

/-- What realizes a clash is one, on a store that has grown. -/
theorem Unified.Realizes.exists_clash {σ : Store} {u : Unified} (h : u.Realizes σ .clash) :
    ∃ τ, u = .clash τ ∧ σ.Grows τ := by
  cases u with
  | clash τ => exact ⟨τ, rfl, h⟩
  | unified | unfinished => exact h.elim

/-- What realizes a unification that does not end does not end either. -/
theorem Unified.Realizes.eq_unfinished {σ : Store} {u : Unified} (h : u.Realizes σ .unfinished) :
    u = .unfinished := by
  cases u with
  | unfinished => rfl
  | unified | clash => exact h.elim

/-- A unification that fails has only added to the store. -/
theorem Unified.Realizes.grows {σ τ : Store} {v : Verdict} (h : (clash τ).Realizes σ v) :
    σ.Grows τ := by
  cases v with
  | clash => exact h
  | unified | unfinished => exact h.elim

namespace Store

variable {σ : Store} {c : Context}

/-- One step on a store is the step its substitution calls for. -/
theorem unifyPairs_cons (hderef : ∀ o, σ.deref c o = (σ.substitution c).deref o)
    (layout : Layout) (occursCheck : Bool) (steps : Nat)
    (entered pending : List (Occurrence × Occurrence)) (l r : Occurrence) :
    unifyPairs layout occursCheck (steps + 1) σ c entered ((l, r) :: pending) =
      match (σ.substitution c).pairStep layout occursCheck entered l r with
      | .skip => unifyPairs layout occursCheck steps σ c entered pending
      | .clash => .clash σ
      | .bind v value =>
        unifyPairs layout occursCheck steps (σ.bind c v value).1 (σ.bind c v value).2
          entered pending
      | .descend left right remember =>
        unifyPairs layout occursCheck steps σ c
          (if remember then (left, right) :: entered else entered)
          (left.args.zip right.args ++ pending) := by
  have hoccurs : ∀ v t, (σ.substitution c).occurs v t = σ.occurs c v t := fun v t =>
    occurs_eq_of_substitution_eq (σ.substitution c).substitution_store v t
  rw [unifyPairs, Substitution.pairStep]
  simp only [hderef, hoccurs]
  by_cases hreference : layout.sameReference l r = true
  · rw [if_pos hreference, if_pos hreference]
  · rw [if_neg hreference, if_neg hreference]
    cases ((σ.substitution c).deref l).term <;> cases ((σ.substitution c).deref r).term <;>
      simp only <;> split_ifs <;> rfl

/-- The binding that a pair calls for makes the substitution that has it. -/
theorem bind_of_treats {layout : Layout} {occursCheck : Bool}
    {entered : List (Occurrence × Occurrence)}
    {l r : Occurrence} {v : Var} {value : Occurrence} (hc : σ.Holds c)
    (htreats : (σ.substitution c).Treats layout occursCheck entered l r (.bind v value)) :
    σ.Grows (σ.bind c v value).1 ∧ (σ.bind c v value).1.Holds (σ.bind c v value).2 ∧
      (σ.bind c v value).1.substitution (σ.bind c v value).2 = (σ.substitution c).bind v value := by
  obtain ⟨hv, hslot⟩ := htreats.bind_named
  rcases bind_cases hc v value with ⟨hbind, hidle⟩ | ⟨slot, τ, d, hbind, hindex, _, _, hgrows,
    _, hd, hsubst⟩
  · have hnone : v.index = none := by
      rcases hidle with hnone | hanonymous | hself
      · exact hnone
      · rw [hv] at hanonymous
        cases hanonymous
      · cases hindex : v.index with
        | none => rfl
        | some slot => exact absurd (hself.trans hindex) (hslot slot hindex)
    rw [hbind, Substitution.bind, hnone]
    exact ⟨.refl σ, hc, rfl⟩
  · rw [hbind, Substitution.bind, hindex]
    exact ⟨hgrows, hd, hsubst⟩

/-- Unification on a store is unification on the substitution it holds. -/
theorem unifyPairs_realizes (hc : σ.Holds c) (h : (σ.substitution c).Settles) (layout : Layout)
    (occursCheck : Bool)
    (steps : Nat) (entered pending : List (Occurrence × Occurrence)) :
    (unifyPairs layout occursCheck steps σ c entered pending).Realizes σ
      ((σ.substitution c).unifyPairs layout occursCheck steps entered pending) := by
  induction steps generalizing σ c entered pending with
  | zero =>
    cases pending with
    | nil =>
      rw [unifyPairs, Substitution.unifyPairs]
      exact ⟨.refl σ, hc, rfl, h⟩
    | cons pair pending => trivial
  | succ steps ih =>
    cases pending with
    | nil =>
      rw [unifyPairs, Substitution.unifyPairs]
      exact ⟨.refl σ, hc, rfl, h⟩
    | cons pair pending =>
      obtain ⟨l, r⟩ := pair
      rw [unifyPairs_cons (deref_eq h), Substitution.unifyPairs]
      have htreats := (σ.substitution c).treats_pairStep layout occursCheck entered l r
      cases hstep : (σ.substitution c).pairStep layout occursCheck entered l r with
      | skip => exact ih hc h entered pending
      | clash => exact .refl σ
      | descend left right remember => exact ih hc h _ _
      | bind v value =>
        rw [hstep] at htreats
        obtain ⟨hgrows, hd, hsubst⟩ := bind_of_treats hc htreats
        have hsettles := htreats.settles_bind h
        simp only [← hsubst] at hsettles ⊢
        exact (ih hd hsettles entered pending).of_grows hgrows

/-- The verdict on a unification is that of the substitution. -/
theorem verdict_unify (hc : σ.Holds c) (h : (σ.substitution c).Settles) (layout : Layout)
    (occursCheck : Bool)
    (steps : Nat) (left right : Occurrence) :
    (unify layout occursCheck steps σ c left right).verdict =
      (σ.substitution c).unifyPairs layout occursCheck steps [] [(left, right)] :=
  (unifyPairs_realizes hc h layout occursCheck steps [] [(left, right)]).verdict_eq

/-- What a unification returns is a context of the store, and the result on the substitution. -/
theorem unifyPairs_of_unify {τ : Store} {d : Context} {layout : Layout} {occursCheck : Bool}
    {steps : Nat}
    {left right : Occurrence} (hc : σ.Holds c) (h : (σ.substitution c).Settles)
    (hunify : unify layout occursCheck steps σ c left right = .unified τ d) :
    τ.Holds d ∧ (σ.substitution c).unifyPairs layout occursCheck steps [] [(left, right)] =
      .unified (τ.substitution d) := by
  have hrealizes := unifyPairs_realizes hc h layout occursCheck steps [] [(left, right)]
  rw [← unifyAll, ← unify, hunify] at hrealizes
  have hverdict := hrealizes.verdict_eq
  rw [← hverdict] at hrealizes
  obtain ⟨_, hd, _⟩ := hrealizes
  exact ⟨hd, hverdict.symm⟩

end Store

namespace Substitution

/-- A substitution follows variables as its own store does. -/
theorem deref_store (s : Substitution) (o : Occurrence) :
    s.store.deref s.context o = s.deref o := by
  rw [Store.deref, Store.derefWithin_eq_followWithin, substitution_store]
  rfl

/-- A binding in the store of a substitution gives the store of the longer substitution. -/
theorem bind_store (s : Substitution) {v : Var} {value : Occurrence}
    (hv : v.isAnonymous = false) (hself : ∀ slot, v.index = some slot → value.slot? ≠ some slot) :
    s.store.bind s.context v value = ((s.bind v value).store, (s.bind v value).context) := by
  cases hindex : v.index with
  | none => rw [Store.bind, bind, hindex]
  | some slot =>
    have hne := hself slot hindex
    obtain ⟨text, node, term⟩ := value
    have hsize : (storeOf s.bindings).entries.size = s.bindings.length := size_storeOf s.bindings
    cases term <;>
      simp_all [Store.bind, bind, Occurrence.slot?, Term.slot?, store, context, extend, storeOf,
        Store.push]

/-- Unification in the store of a substitution is unification on the substitution. -/
theorem verdict_unifyPairs (s : Substitution) (layout : Layout) (occursCheck : Bool) (steps : Nat)
    (entered pending : List (Occurrence × Occurrence)) :
    (ClauseResolution.unifyPairs layout occursCheck steps s.store s.context
      entered pending).verdict =
      s.unifyPairs layout occursCheck steps entered pending := by
  induction steps generalizing s entered pending with
  | zero =>
    cases pending with
    | nil => rw [ClauseResolution.unifyPairs, unifyPairs, Unified.verdict, substitution_store]
    | cons pair pending => rfl
  | succ steps ih =>
    cases pending with
    | nil => rw [ClauseResolution.unifyPairs, unifyPairs, Unified.verdict, substitution_store]
    | cons pair pending =>
      obtain ⟨l, r⟩ := pair
      have hderef : ∀ o, s.store.deref s.context o =
          (s.store.substitution s.context).deref o := fun o => by
        rw [deref_store, substitution_store]
      have htreats := s.treats_pairStep layout occursCheck entered l r
      rw [Store.unifyPairs_cons hderef, unifyPairs, substitution_store]
      cases hstep : s.pairStep layout occursCheck entered l r with
      | skip => exact ih s entered pending
      | clash => rfl
      | descend left right remember => exact ih s _ _
      | bind v value =>
        rw [hstep] at htreats
        obtain ⟨hv, hself⟩ := htreats.bind_named
        simp only [s.bind_store hv hself]
        exact ih (s.bind v value) entered pending

end Substitution

end ClauseResolution
