import ClauseResolution.Proofs.Substitution.Mirror
import ClauseResolution.Proofs.Unification.Names
import ClauseResolution.Proofs.Unification.Reached
import Mathlib.Data.List.Zip

/-!
# Unification is symmetric

A unification is compared with the unification of the same pairs in the other order. The two
take their steps together. Where one side is no variable both bind the same variable, or rather
its counterpart, to the same occurrence; two variables are bound to each other in opposite
directions. So their substitutions mirror each other from the start to the end, the occurs test
has the same answers, and the pairs entered are the same pairs the other way round.
-/

namespace ClauseResolution

/-- Both sides of some pairs, exchanged. -/
def swapPairs (pairs : List (Occurrence × Occurrence)) : List (Occurrence × Occurrence) :=
  pairs.map Prod.swap

/-- The first pair is exchanged, and so are the others. -/
theorem swapPairs_cons (left right : Occurrence) (pairs : List (Occurrence × Occurrence)) :
    swapPairs ((left, right) :: pairs) = (right, left) :: swapPairs pairs := rfl

/-- Exchanging the sides of pairs twice changes nothing. -/
theorem swapPairs_swapPairs (pairs : List (Occurrence × Occurrence)) :
    swapPairs (swapPairs pairs) = pairs := by
  simp [swapPairs]

/-- What was met in one order was met in the other. -/
theorem met_swapPairs (layout : Layout) (pairs : List (Occurrence × Occurrence))
    (a b : Occurrence) : layout.met (swapPairs pairs) b a = layout.met pairs a b := by
  rw [Layout.met, Layout.met, swapPairs, List.any_map]
  exact congrArg (pairs.any ·) (funext fun p => Bool.and_comm _ _)

/-- The arguments of two terms are exchanged with the terms. -/
theorem swapPairs_args (left right : Occurrence) (pairs : List (Occurrence × Occurrence)) :
    swapPairs (left.args.zip right.args ++ pairs) =
      right.args.zip left.args ++ swapPairs pairs := by
  rw [swapPairs, List.map_append, List.zip_swap, swapPairs]

/-- It does not matter which of two constants is compared with the other. -/
theorem Term.sameConstant_comm (t u : Term) : t.sameConstant u = u.sameConstant t := by
  cases t <;> cases u <;> try rfl
  · exact BEq.comm
  · next v w => cases hv : v.index <;> cases hw : w.index <;> simp [sameConstant, hv, hw, eq_comm]

/-- It does not matter which side is looked at first. -/
theorem Layout.drops_comm (layout : Layout) (l r : Occurrence) :
    layout.drops l r = layout.drops r l := by
  rw [drops, drops, shares, shares, Bool.and_comm l.isCompound, BEq.comm]

/-- One reference is one reference in the other order. -/
theorem Layout.sameReference_comm (layout : Layout) (l r : Occurrence) :
    layout.sameReference l r = layout.sameReference r l := by
  rw [sameReference, sameReference, Term.sameConstant_comm, drops_comm]

namespace Substitution

variable {s s' : Substitution} {layout : Layout} {left right a b value value' : Occurrence}
  {v v' : Var}
  {k k' m m' : Nat} {occursCheck : Bool} {entered : List (Occurrence × Occurrence)}

/-- A step, and the step of the exchanged pair in a substitution that mirrors the one. -/
inductive StepMirrors (s s' : Substitution) : PairStep → PairStep → Prop
  /-- Both pairs are solved. -/
  | skip : StepMirrors s s' .skip .skip
  /-- Neither pair can be solved. -/
  | clash : StepMirrors s s' .clash .clash
  /-- A variable and its counterpart are bound to the same occurrence. -/
  | assign {v v' : Var} {value : Occurrence} {k k' : Nat} (hindex : v.index = some k)
      (hindex' : v'.index = some k') (hpart : Counterpart s s' k k') (hslot : value.slot? = none)
      (hvalue : value.term.isDefinite) : StepMirrors s s' (.bind v value) (.bind v' value)
  /-- A variable is bound to another one, and the counterpart of that one to its counterpart. -/
  | link {v w : Var} {value value' : Occurrence} {k k' m m' : Nat} (hindex : v.index = some k)
      (hindex' : w.index = some m') (hpart : Counterpart s s' k k') (hother : Counterpart s s' m m')
      (hne : k ≠ m) (hslot : value.slot? = some m) (hslot' : value'.slot? = some k')
      (hvalue : value.term.isDefinite) (hvalue' : value'.term.isDefinite) :
      StepMirrors s s' (.bind v value) (.bind w value')
  /-- Both go on with the arguments. -/
  | descend {a b : Occurrence} {remember : Bool} :
      StepMirrors s s' (.descend a b remember) (.descend b a remember)

/-- A step mirrors the step that mirrors it. -/
theorem StepMirrors.symm {step step' : PairStep} (h : StepMirrors s s' step step') :
    StepMirrors s' s step' step := by
  cases h with
  | skip => exact .skip
  | clash => exact .clash
  | assign hindex hindex' hpart hslot hvalue => exact .assign hindex' hindex hpart.symm hslot hvalue
  | link hindex hindex' hpart hother hne hslot hslot' hvalue hvalue' =>
    have hne' := mt (hpart.eq_iff hother).2 hne
    exact .link hindex' hindex hother.symm hpart.symm (Ne.symm hne') hslot' hslot hvalue' hvalue
  | descend => exact .descend

/-- Bindings of counterparts keep substitutions that mirror each other. -/
theorem StepMirrors.mirrors_bind (h : Mirrors s s')
    (hstep : StepMirrors s s' (.bind v value) (.bind v' value')) :
    Mirrors (s.bind v value) (s'.bind v' value') := by
  cases hstep with
  | assign hindex hindex' hpart hslot hvalue =>
    rw [bind, bind, hindex, hindex']
    exact h.assign hpart hslot hvalue
  | link hindex hindex' hpart hother hne hslot hslot' hvalue hvalue' =>
    rw [bind, bind, hindex, hindex']
    exact h.link hpart hother hne hslot hslot' hvalue hvalue'

/-- A variable of a definite term is anonymous when it has no slot. -/
theorem isAnonymous_of_slot? (hdefinite : a.term.isDefinite) (hv : a.term = .var v) :
    v.isAnonymous = a.slot?.isNone := by
  rw [hv, Term.isDefinite_var] at hdefinite
  rw [Occurrence.slot?, hv, Term.slot?]
  exact Var.isAnonymous_of_isDefinite hdefinite

/-- A variable that is followed to a slot is named. -/
theorem exists_var_of_deref (hdefinite : a.term.isDefinite) (hslot : a.slot? = some k) :
    ∃ v : Var, a.term = .var v ∧ v.index = some k ∧ v.isAnonymous = false := by
  obtain ⟨v, hv, hindex⟩ := Occurrence.exists_var_of_slot? hslot
  exact ⟨v, hv, hindex, by rw [isAnonymous_of_slot? hdefinite hv, hslot]; rfl⟩

/-- What stands on one side, and has no slot, is the anonymous variable or none. -/
theorem isVar_or_anonymous (hdefinite : a.term.isDefinite) (hslot : a.slot? = none) :
    a.isVar = false ∨ ∃ v : Var, a.term = .var v ∧ v.isAnonymous = true := by
  cases hterm : a.term with
  | var v =>
    refine Or.inr ⟨v, rfl, ?_⟩
    rw [isAnonymous_of_slot? hdefinite hterm, hslot, Option.isNone_none]
  | atom | number | compound => exact Or.inl (by rw [Occurrence.isVar, hterm])

/-- The anonymous variable stands on one side. -/
theorem StepMirrors.of_anonymous (hv : v.isAnonymous = true)
    (hside : (s.deref left).term = .var v ∨ (s.deref right).term = .var v)
    (hside' : (s'.deref left).term = .var v ∨ (s'.deref right).term = .var v) :
    StepMirrors s s' (s.pairStep layout occursCheck entered left right)
      (s'.pairStep layout occursCheck (swapPairs entered) right left) := by
  rw [pairStep_of_anonymous hside hv, pairStep_of_anonymous hside'.symm hv]
  exact .skip

/-- Neither side is a variable. -/
theorem StepMirrors.of_nodes (hreference : layout.sameReference left right = false)
    (hl : s.deref left = a) (hl' : s'.deref left = a)
    (hr : s.deref right = b) (hr' : s'.deref right = b) (ha : a.isVar = false)
    (hb : b.isVar = false) :
    StepMirrors s s' (s.pairStep layout occursCheck entered left right)
      (s'.pairStep layout occursCheck (swapPairs entered) right left) := by
  have hreference' : layout.sameReference right left = false :=
    (layout.sameReference_comm right left).trans hreference
  rw [pairStep, pairStep]
  simp only [hreference, hreference', hl, hl', hr, hr', met_swapPairs, layout.drops_comm b a,
    Bool.or_comm right.isVar, Bool.false_eq_true, if_false]
  cases hterm : a.term with
  | var v => exact absurd hterm (Occurrence.ne_var ha v)
  | atom | number | compound =>
    cases hterm' : b.term with
    | var v => exact absurd hterm' (Occurrence.ne_var hb v)
    | atom | number | compound =>
      -- Each comparison of the two nodes is made in both orders.
      simp only [Number.same_comm, BEq.comm]
      repeat' split
      all_goals constructor

section Pair

variable (hconstant : left.term.sameConstant right.term = false)
  (hconstant' : right.term.sameConstant left.term = false)
include hconstant hconstant'

namespace Mirrors

variable (h : Mirrors s s')
include h

omit hconstant hconstant' in
/-- The occurs test of counterparts. -/
theorem occurs_counterpart (hpart : Counterpart s s' k k') (hindex : v.index = some k)
    (hindex' : v'.index = some k') (t : Term) : s.occurs v t = s'.occurs v' t := by
  obtain ⟨hfree, hfree'⟩ := h.valueAt_of_counterpart hpart
  have hreaches : s.Reaches t k ↔ s'.Reaches t k' := h.reaches_iff hpart
  rw [Bool.eq_iff_iff, occurs_iff, occurs_iff]
  simp [hindex, hindex', hfree, hfree', hreaches]

/-- On the left counterparts are met, and on the right an occurrence without a slot. -/
theorem pairStep_of_free_left (hleft : left.term.isDefinite) (hright : right.term.isDefinite)
    (hl : (s.deref left).slot? = some k) (hl' : (s'.deref left).slot? = some k')
    (hpart : Counterpart s s' k k') (hr : s.deref right = b) (hr' : s'.deref right = b)
    (hb : b.slot? = none) :
    StepMirrors s s' (s.pairStep layout occursCheck entered left right)
      (s'.pairStep layout occursCheck (swapPairs entered) right left) := by
  obtain ⟨v, hv, hindex, hnamed⟩ := exists_var_of_deref (h.isDefinite_deref hleft) hl
  obtain ⟨v', hv', hindex', hnamed'⟩ := exists_var_of_deref (h.symm.isDefinite_deref hleft) hl'
  have hdefinite : b.term.isDefinite := hr ▸ h.isDefinite_deref hright
  rcases isVar_or_anonymous hdefinite hb with hvar | ⟨w, hw, hanonymous⟩
  · rw [pairStep_of_left hv (by rwa [hr]) hconstant,
      pairStep_of_right (by rwa [hr']) hv' hconstant', hr, hr',
        h.occurs_counterpart hpart hindex hindex']
    simp only [hnamed, hnamed', Bool.false_eq_true, if_false]
    split
    · exact .clash
    · exact .assign hindex hindex' hpart hb hdefinite
  · exact .of_anonymous hanonymous (Or.inr (by rwa [hr])) (Or.inr (by rwa [hr']))

/-- Counterparts are met on both sides. -/
theorem pairStep_of_free (hleft : left.term.isDefinite) (hright : right.term.isDefinite)
    (hl : (s.deref left).slot? = some k) (hl' : (s'.deref left).slot? = some k')
    (hpart : Counterpart s s' k k') (hr : (s.deref right).slot? = some m)
    (hr' : (s'.deref right).slot? = some m') (hother : Counterpart s s' m m') :
    StepMirrors s s' (s.pairStep layout occursCheck entered left right)
      (s'.pairStep layout occursCheck (swapPairs entered) right left) := by
  obtain ⟨v, hv, hindex, hnamed⟩ := exists_var_of_deref (h.isDefinite_deref hleft) hl
  obtain ⟨v', hv', hindex', hnamed'⟩ := exists_var_of_deref (h.symm.isDefinite_deref hleft) hl'
  obtain ⟨w, hw, hslot, hnamedOther⟩ := exists_var_of_deref (h.isDefinite_deref hright) hr
  obtain ⟨w', hw', hslot', hnamedOther'⟩ :=
    exists_var_of_deref (h.symm.isDefinite_deref hright) hr'
  rw [pairStep_of_vars hconstant hv hw, pairStep_of_vars hconstant' hw' hv']
  simp only [hnamed, hnamed', hnamedOther, hnamedOther', Bool.or_self, Bool.false_or, Var.same,
    hindex, hindex', hslot, hslot', beq_iff_eq]
  by_cases heq : k = m
  · rw [if_pos heq, if_pos ((hpart.eq_iff hother).1 heq).symm]
    exact .skip
  · rw [if_neg heq, if_neg (Ne.symm (mt (hpart.eq_iff hother).2 heq))]
    exact .link hindex hslot' hpart hother heq hr hl' (h.isDefinite_deref hright)
      (h.symm.isDefinite_deref hleft)

end Mirrors

end Pair

/-- A pair and the exchanged pair call for the same step, the other way round. -/
theorem Mirrors.pairStep (h : Mirrors s s') (layout : Layout) (occursCheck : Bool)
    (entered : List (Occurrence × Occurrence)) (hleft : left.term.isDefinite)
    (hright : right.term.isDefinite) :
    StepMirrors s s' (s.pairStep layout occursCheck entered left right)
      (s'.pairStep layout occursCheck (swapPairs entered) right left) := by
  have hcomm := layout.sameReference_comm left right
  cases hreference : layout.sameReference left right with
  | true =>
    rw [pairStep_of_sameReference hreference, pairStep_of_sameReference (hcomm ▸ hreference)]
    exact .skip
  | false =>
    have hconstant : left.term.sameConstant right.term = false :=
      (Bool.or_eq_false_iff.1 hreference).1
    have hconstant' : right.term.sameConstant left.term = false := by
      rw [← Term.sameConstant_comm, hconstant]
    have hmeetsLeft := h.deref_meets left
    have hmeetsRight := h.deref_meets right
    generalize hl : s.deref left = e, hl' : s'.deref left = e' at hmeetsLeft
    generalize hr : s.deref right = f, hr' : s'.deref right = f' at hmeetsRight
    cases hmeetsLeft with
    | same ha =>
      cases hmeetsRight with
      | same hb =>
        rcases isVar_or_anonymous (hl ▸ h.isDefinite_deref hleft) ha with hvar | ⟨v, hv, hanonymous⟩
        · rcases isVar_or_anonymous (hr ▸ h.isDefinite_deref hright) hb with
            hvar' | ⟨w, hw, hanonymous⟩
          · exact .of_nodes hreference hl hl' hr hr' hvar hvar'
          · exact .of_anonymous hanonymous (Or.inr (by rwa [hr])) (Or.inr (by rwa [hr']))
        · exact .of_anonymous hanonymous (Or.inl (by rwa [hl])) (Or.inl (by rwa [hl']))
      | free hslot hslot' hpart =>
        -- This is the case of a free slot on the left in the other order.
        have hmirrored : StepMirrors s' s (s'.pairStep layout occursCheck
          (swapPairs entered) right left)
            (s.pairStep layout occursCheck (swapPairs (swapPairs entered)) left right) :=
          h.symm.pairStep_of_free_left hconstant' hconstant hright hleft (by rw [hr', hslot'])
            (by rw [hr, hslot]) hpart.symm hl' hl ha
        rw [swapPairs_swapPairs] at hmirrored
        exact hmirrored.symm
    | free hslot hslot' hpart =>
      cases hmeetsRight with
      | same hb =>
        exact h.pairStep_of_free_left hconstant hconstant' hleft hright (by rw [hl, hslot])
          (by rw [hl', hslot']) hpart hr hr' hb
      | free hother hother' hpart' =>
        exact h.pairStep_of_free hconstant hconstant' hleft hright (by rw [hl, hslot])
          (by rw [hl', hslot']) hpart (by rw [hr, hother]) (by rw [hr', hother']) hpart'

end Substitution

/-- Two unifications end alike: in stores of one size and, where they succeed, with as many slots
and with substitutions that mirror each other. -/
def Unified.Mirrors : Unified → Unified → Prop
  | .unified σ c, .unified τ d => σ.size = τ.size ∧ c.top = d.top ∧
    Substitution.Mirrors (σ.substitution c) (τ.substitution d)
  | .clash σ, .clash τ => σ.size = τ.size
  | .unfinished, .unfinished => True
  | _, _ => False

namespace Store

open Substitution

variable {σ τ : Store} {c d : Context} {layout : Layout} {left right : Occurrence}
  {occursCheck : Bool}

/-- A binding that a pair calls for adds one entry, and no slots. -/
theorem size_bind_of_treats {entered : List (Occurrence × Occurrence)} {l r value : Occurrence}
    {v : Var} {slot : Nat} (hindex : v.index = some slot)
    (htreats : (σ.substitution c).Treats layout occursCheck entered l r (.bind v value)) :
    (σ.bind c v value).1.size = σ.size + 1 ∧ (σ.bind c v value).2.top = c.top := by
  obtain ⟨hnamed, hself⟩ := htreats.bind_named
  rw [bind_of_slot hindex hnamed (hself slot hindex)]
  exact ⟨size_push .., rfl⟩

/-- The unification of exchanged pairs takes the same steps, the other way round. -/
theorem unifyPairs_mirrors {steps : Nat} {entered pending : List (Occurrence × Occurrence)}
    (hc : σ.Holds c) (hd : τ.Holds d) (hsize : σ.size = τ.size) (htop : c.top = d.top)
    (h : Mirrors (σ.substitution c) (τ.substitution d))
    (hpending : ∀ p ∈ pending, p.1.term.isDefinite ∧ p.2.term.isDefinite) :
    (unifyPairs layout occursCheck steps σ c entered pending).Mirrors
      (unifyPairs layout occursCheck steps τ d (swapPairs entered) (swapPairs pending)) := by
  induction steps generalizing σ τ c d entered pending with
  | zero =>
    cases pending with
    | nil => exact ⟨hsize, htop, h⟩
    | cons pair pending => trivial
  | succ steps ih =>
    cases pending with
    | nil => exact ⟨hsize, htop, h⟩
    | cons pair pending =>
      obtain ⟨l, r⟩ := pair
      obtain ⟨⟨hl, hr⟩, hrest⟩ : (l.term.isDefinite ∧ r.term.isDefinite) ∧
          ∀ p ∈ pending, p.1.term.isDefinite ∧ p.2.term.isDefinite :=
        List.forall_mem_cons.1 hpending
      have hstep := h.pairStep layout occursCheck entered hl hr
      have htreats := (σ.substitution c).treats_pairStep layout occursCheck entered l r
      have htreats' := (τ.substitution d).treats_pairStep layout occursCheck (swapPairs entered) r l
      rw [unifyPairs_cons (deref_eq h.settles), swapPairs_cons,
        unifyPairs_cons (deref_eq h.settles')]
      generalize (σ.substitution c).pairStep layout occursCheck entered l r = step at *
      generalize (τ.substitution d).pairStep layout occursCheck (swapPairs entered) r l = step' at *
      have hbinds : ∀ {v v' value value' k k'}, step = .bind v value → step' = .bind v' value' →
          v.index = some k → v'.index = some k' →
          (unifyPairs layout occursCheck steps (σ.bind c v value).1 (σ.bind c v value).2 entered
            pending).Mirrors (unifyPairs layout occursCheck steps (τ.bind d v' value').1
              (τ.bind d v' value').2 (swapPairs entered) (swapPairs pending)) := by
        rintro v v' value value' k k' rfl rfl hindex hindex'
        obtain ⟨hsize₁, htop₁⟩ := size_bind_of_treats hindex htreats
        obtain ⟨hsize₂, htop₂⟩ := size_bind_of_treats hindex' htreats'
        obtain ⟨_, hholds, hsubst⟩ := bind_of_treats hc htreats
        obtain ⟨_, hholds', hsubst'⟩ := bind_of_treats hd htreats'
        refine ih hholds hholds' (by rw [hsize₁, hsize₂, hsize]) (by rw [htop₁, htop₂, htop]) ?_
          hrest
        rw [hsubst, hsubst']
        exact hstep.mirrors_bind h
      cases hstep with
      | skip => exact ih hc hd hsize htop h hrest
      | clash => exact hsize
      | assign hindex hindex' => exact hbinds rfl rfl hindex hindex'
      | link hindex hindex' => exact hbinds rfl rfl hindex hindex'
      | @descend a b remember =>
        cases htreats with
        | descend =>
          have hargs := Occurrence.forall_zip_args (motive := fun t => t.isDefinite)
            Term.isDefinite_of_mem_args (h.isDefinite_deref hl) (h.isDefinite_deref hr)
          have hentered : swapPairs (if remember then ((σ.substitution c).deref l,
              (σ.substitution c).deref r) :: entered else entered) =
              if remember then ((σ.substitution c).deref r, (σ.substitution c).deref l) ::
                swapPairs entered else swapPairs entered := apply_ite swapPairs ..
          dsimp only
          rw [← hentered, ← swapPairs_args]
          exact ih hc hd hsize htop h (List.forall_mem_append.2 ⟨hargs, hrest⟩)

/-- Unification is symmetric where the name of a variable tells whether it has a slot, in the
terms and in the values that are bound. With enough steps the two orders both clash or both
succeed, and leave stores of one size. What acyclic results make of a term is then equal up to
one renaming of the free slots, which is the same for all terms. -/
theorem unify_symmetric (layout : Layout) (h : Reached false σ c)
    (hacyclic : occursCheck = true → (σ.substitution c).Acyclic)
    (hvalues : ∀ binding ∈ (σ.substitution c).bindings, binding.2.term.isDefinite)
    (hleft : left.term.isDefinite) (hright : right.term.isDefinite) :
    ∃ enough, ∀ steps ≥ enough,
      (∃ τ τ', unify layout occursCheck steps σ c left right = .clash τ ∧
        unify layout occursCheck steps σ c right left = .clash τ' ∧ τ.size = τ'.size) ∨
      ∃ τ d τ' d', unify layout occursCheck steps σ c left right = .unified τ d ∧
        unify layout occursCheck steps σ c right left = .unified τ' d' ∧ τ.size = τ'.size ∧
        d.top = d'.top ∧
        ((τ.substitution d).Acyclic → (τ'.substitution d').Acyclic →
          ∃ ρ : Nat → Nat,
            Set.BijOn ρ {slot | τ.valueAt d slot = none} {slot | τ'.valueAt d' slot = none} ∧
            ∀ t, ∃ a b, τ.reify d t = some a ∧ τ'.reify d' t = some b ∧
              a.relabel ρ = b.relabel id) := by
  obtain ⟨hholds, horderly, _⟩ := h.wellFounded
  obtain ⟨enough, result, hresult, hends⟩ := h.exists_unify_eq layout hacyclic left right
  refine ⟨enough, fun steps hsteps => ?_⟩
  have hmirrors : (unify layout occursCheck steps σ c left right).Mirrors
      (unify layout occursCheck steps σ c right left) :=
    unifyPairs_mirrors hholds hholds rfl rfl (horderly.settles.mirrors_self hvalues)
      (List.forall_mem_singleton.2 ⟨hleft, hright⟩)
  rw [hends steps hsteps] at hmirrors ⊢
  generalize unify layout occursCheck steps σ c right left = result' at hmirrors ⊢
  rcases hresult with ⟨τ, d, rfl⟩ | ⟨τ, rfl⟩
  · cases result' with
    | clash | unfinished => exact hmirrors.elim
    | unified τ' d' =>
      obtain ⟨hsize, htop, hmirrors⟩ := hmirrors
      refine Or.inr ⟨τ, d, τ', d', rfl, rfl, hsize, htop, fun hs hs' => ?_⟩
      refine ⟨_, ?_, fun t => ⟨_, _, reify_eq_solution hs t, reify_eq_solution hs' t,
        hmirrors.relabel_solution hs hs' t⟩⟩
      simpa only [valueAt_substitution] using hmirrors.bijOn_counterpart
  · cases result' with
    | clash τ' => exact Or.inl ⟨τ, τ', rfl, rfl, hmirrors⟩
    | unified | unfinished => exact hmirrors.elim

/-- Unifying `p(X, Y, Z)` and `p(Y, Z, X)` leaves `Z` free in one order and `X` in the other. The
renaming of the free slots takes the one to the other. -/
theorem unify_symmetric_chain :
    let x : Var := ⟨"X", some 0⟩
    let y : Var := ⟨"Y", some 1⟩
    let z : Var := ⟨"Z", some 2⟩
    let left : Occurrence := .whole 0 (.apply "p" [.var x, .var y, .var z])
    let right : Occurrence := .whole 1 (.apply "p" [.var y, .var z, .var x])
    let forth : Store := ⟨#[⟨0, ⟨1, 1, .var y⟩, 0⟩, ⟨1, ⟨1, 2, .var z⟩, 1⟩]⟩
    let back : Store := ⟨#[⟨1, ⟨0, 1, .var x⟩, 0⟩, ⟨2, ⟨0, 1, .var x⟩, 1⟩]⟩
    Reached false .empty ⟨0, 3⟩ ∧ left.term.isDefinite ∧ right.term.isDefinite ∧
      (∃ steps, unify .byTerm true steps .empty ⟨0, 3⟩ left right = .unified forth ⟨2, 3⟩ ∧
        unify .byTerm true steps .empty ⟨0, 3⟩ right left = .unified back ⟨2, 3⟩) ∧
      ∃ ρ : Nat → Nat, Set.BijOn ρ {slot | forth.valueAt ⟨2, 3⟩ slot = none}
        {slot | back.valueAt ⟨2, 3⟩ slot = none} ∧ ρ 2 = 0 := by
  intro x y z left right forth back
  have hreached : Reached true .empty ⟨0, 3⟩ := Reached.empty .empty |>.allocate 3
  have hreached' : Reached false .empty ⟨0, 3⟩ := Reached.empty .empty |>.allocate 3
  obtain ⟨hholds, horderly, hacyclic⟩ := hreached.wellFounded
  have hleft : left.term.isDefinite := by decide
  have hright : right.term.isDefinite := by decide
  obtain ⟨enough, hends⟩ := unify_symmetric .byTerm hreached'
    (fun _ : true = true => hacyclic rfl) (by simp [substitution, chain]) hleft hright
  have hforth : unify .byTerm true (enough + 4) .empty ⟨0, 3⟩ left right =
      .unified forth ⟨2, 3⟩ := by cbv
  have hback : unify .byTerm true (enough + 4) .empty ⟨0, 3⟩ right left =
      .unified back ⟨2, 3⟩ := by cbv
  refine ⟨hreached', hleft, hright, ⟨enough + 4, hforth, hback⟩, ?_⟩
  have hend := hends (enough + 4) (Nat.le_add_right ..)
  rw [hforth, hback] at hend
  rcases hend with ⟨_, _, hclash, _⟩ | ⟨τ, d, τ', d', hτ, hτ', _, _, hrenames⟩
  · cases hclash
  · cases hτ
    cases hτ'
    obtain ⟨_, _, hs⟩ := wellFounded_of_unify hholds horderly hforth
    obtain ⟨_, _, hs'⟩ := wellFounded_of_unify hholds horderly hback
    obtain ⟨ρ, hρ, hterms⟩ := hrenames (hs rfl (hacyclic rfl)) (hs' rfl (hacyclic rfl))
    obtain ⟨a, b, ha, hb, hequal⟩ := hterms (.var x)
    have horder : forth.slotOrder ⟨2, 3⟩ 2 [] [] [.visit (.var x)] = some [0, 1] := by cbv
    have hz : forth.reify ⟨2, 3⟩ (.var x) = some (.var z) := by
      rw [reify, horder]
      with_unfolding_all rfl
    have hfree : back.slotOrder ⟨2, 3⟩ 2 [] [] [.visit (.var x)] = some [] := by cbv
    have hx : back.reify ⟨2, 3⟩ (.var x) = some (.var x) := by
      rw [reify, hfree]
      with_unfolding_all rfl
    rw [hz] at ha
    rw [hx] at hb
    cases ha
    cases hb
    exact ⟨ρ, hρ, by simpa [Var.relabel, x, z] using hequal⟩

/-- Symmetry fails when a bound value has a variable whose name does not tell whether it has a
slot. With `A` bound to `f(X)`, where `X` has no slot, unifying `A` and `f(Y)` binds nothing, but
unifying `f(Y)` and `A` binds `Y`. With `A` bound to `f(_)`, where this variable has the slot of
`X`, it matters whether `p(X, A)` or `p(Y, f(a))` stands on the left: if `X` is bound to `Y`, then
`Y` is bound to `a`, and if `Y` is bound to `X`, then the anonymous variable is passed over. -/
theorem unify_asymmetric :
    let a : Var := ⟨"A", some 0⟩
    let x : Var := ⟨"X", some 1⟩
    let y : Var := ⟨"Y", some 2⟩
    let unindexed : Store := ⟨#[⟨0, .whole 0 (.apply "f" [.var ⟨"X", none⟩]), 0⟩]⟩
    let anonymous : Store := ⟨#[⟨0, .whole 0 (.apply "f" [.var ⟨"_", some 1⟩]), 0⟩]⟩
    let fy : Occurrence := .whole 2 (.apply "f" [.var y])
    let left : Occurrence := .whole 1 (.apply "p" [.var x, .var a])
    let right : Occurrence := .whole 2 (.apply "p" [.var y, .apply "f" [.atom "a"]])
    (Reached true unindexed ⟨1, 3⟩ ∧ fy.term.isDefinite ∧
      (∃ τ d, unify .byOccurrence false 2 unindexed ⟨1, 3⟩ (.whole 1 (.var a)) fy = .unified τ d ∧
        τ.size = 1) ∧
      ∃ τ d, unify .byOccurrence false 2 unindexed ⟨1, 3⟩ fy (.whole 1 (.var a)) = .unified τ d ∧
        τ.size = 2) ∧
    Reached true anonymous ⟨1, 3⟩ ∧ left.term.isDefinite ∧ right.term.isDefinite ∧
      (∃ τ d, unify .byOccurrence false 4 anonymous ⟨1, 3⟩ left right = .unified τ d ∧ τ.size = 3) ∧
      ∃ τ d, unify .byOccurrence false 4 anonymous ⟨1, 3⟩ right left = .unified τ d ∧
        τ.size = 2 := by
  intro a x y unindexed anonymous fy left right
  have hreached : ∀ t : Term, unify .byOccurrence true 1 .empty ⟨0, 3⟩ (.whole 0 (.var a))
    (.whole 0 t) =
      .unified ⟨#[⟨0, .whole 0 t, 0⟩]⟩ ⟨1, 3⟩ → Reached true ⟨#[⟨0, .whole 0 t, 0⟩]⟩ ⟨1, 3⟩ :=
    fun t => (Reached.empty .empty |>.allocate 3).unify .byOccurrence true id 1 _ _
  let σ₁ : Store := (unindexed.push ⟨2, ⟨0, 1, .var ⟨"X", none⟩⟩, 1⟩).1
  let σ₂ : Store := ((anonymous.push ⟨1, ⟨2, 1, .var y⟩, 1⟩).1.push ⟨2, ⟨2, 3, .atom "a"⟩, 2⟩).1
  let σ₃ : Store := (anonymous.push ⟨2, ⟨1, 1, .var x⟩, 1⟩).1
  exact ⟨⟨hreached _ (by cbv), by decide, ⟨unindexed, ⟨1, 3⟩, by cbv, rfl⟩, σ₁, ⟨2, 3⟩, by cbv,
      rfl⟩,
    hreached _ (by cbv), by decide, by decide, ⟨σ₂, ⟨3, 3⟩, by cbv, rfl⟩, σ₃, ⟨2, 3⟩, by cbv, rfl⟩

end Store

end ClauseResolution
