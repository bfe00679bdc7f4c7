import ClauseResolution.Proofs.Substitution.Roots
import ClauseResolution.Proofs.Term.Definite
import ClauseResolution.Proofs.Unification.Derived
import ClauseResolution.Proofs.Unification.Names

/-!
# Solved pairs

A pair is solved when going through it with the occurs check once more binds nothing, even if no
pair is dropped at a glance. This depends on the terms alone, and not on where they stand. Pairs
that stand for the same are solved, since an acyclic substitution has an end below every term; so a
pair is solved once one of its sides was bound to the other. What is solved remains so when more
is bound, as long as terms are stable. No term stands below itself in an acyclic substitution.
-/

namespace ClauseResolution

/-- What has arguments has no slot. -/
theorem Occurrence.slot?_of_mem_args {o arg : Occurrence} (h : arg ∈ o.args) : o.slot? = none := by
  have hmem := term_mem_args h
  rw [slot?]
  cases hterm : o.term with
  | compound => rfl
  | atom | number | var => simp [hterm, Term.args] at hmem

/-- An occurrence of a variable has a variable as its term. -/
theorem Occurrence.exists_var_of_isVar {o : Occurrence} (h : o.isVar = true) :
    ∃ v, o.term = .var v := by
  rw [isVar] at h
  cases hterm : o.term with
  | var v => exact ⟨v, rfl⟩
  | atom | number | compound => simp [hterm] at h

/-- Where the nodes agree, variables stand on both sides or on neither. -/
theorem Occurrence.isVar_of_sameNode {a b : Occurrence} (h : a.term.sameNode b.term = true) :
    a.isVar = b.isVar := by
  rw [isVar, isVar]
  cases ha : a.term <;> cases hb : b.term <;> simp_all [Term.sameNode]

/-- Where the nodes agree, slots do. -/
theorem Occurrence.slot?_of_sameNode {a b : Occurrence} (h : a.term.sameNode b.term = true) :
    a.slot? = b.slot? := by
  rw [slot?, slot?]
  cases ha : a.term with
  | var v =>
    cases hb : b.term with
    | var w =>
      rw [ha, hb, Term.sameNode] at h
      cases hv : v.index <;> cases hw : w.index <;> simp_all [Var.same, Term.slot?]
    | atom | number | compound => simp [ha, hb, Term.sameNode] at h
  | atom | number | compound =>
    cases hb : b.term with
    | var w => simp [ha, hb, Term.sameNode] at h
    | atom | number | compound => rfl

/-- A stable term contains no number that is not a number. -/
theorem Term.isNaNFree_of_isStable {t : Term} (h : t.isStable) : t.isNaNFree := by
  rw [isStable, List.all_eq_true] at h
  rw [isNaNFree, List.all_eq_true]
  intro leaf hleaf
  have hstable := h leaf hleaf
  cases leaf with
  | number => exact hstable
  | atom | var | compound => rfl

/-- What becomes of an argument is smaller than what becomes of the term. -/
theorem Term.extent_assign_lt {θ : Assignment} {t u : Term} (h : t ∈ u.args) :
    (t.assign θ).extent < (u.assign θ).extent := by
  cases u with
  | compound functor args varCount =>
    have hlt : _ < extents (args.map (assign θ)) :=
      extent_lt_extents_of_mem (List.mem_map_of_mem h)
    rw [assign_compound, extent]
    omega
  | atom | number | var => simp [args] at h

namespace Substitution

variable {s s' : Substitution} {layout : Layout} {l r o x y value : Occurrence} {v : Var}
  {slot : Nat}

/-- The substitution is acyclic, and all values are stable. -/
structure Steady (s : Substitution) : Prop where
  /-- No slot leads to itself. -/
  acyclic : s.Acyclic
  /-- The values are stable. -/
  stable : ∀ binding ∈ s.bindings, binding.2.term.isStable

/-- What is followed from a stable occurrence is stable. -/
theorem Steady.isStable_deref (h : s.Steady) (ho : o.term.isStable) :
    (s.deref o).term.isStable :=
  deref_keeps (motive := fun o => o.term.isStable) h.stable ho

/-- The arguments of what is followed from a stable pair are stable. -/
theorem Steady.isStable_args (h : s.Steady) (hl : l.term.isStable) (hr : r.term.isStable) :
    ∀ p ∈ (s.deref l).args.zip (s.deref r).args, p.1.term.isStable ∧ p.2.term.isStable :=
  Occurrence.forall_zip_args (motive := fun t => t.isStable) Term.isStable_of_mem_args
    (h.isStable_deref hl) (h.isStable_deref hr)

/-- An occurrence is an argument of what another one is followed to. -/
def Under (s : Substitution) (x y : Occurrence) : Prop := x ∈ (s.deref y).args

/-- What stands under an occurrence has a smaller solution. -/
theorem Acyclic.extent_lt_of_under (h : s.Acyclic) (hunder : s.Under x y) :
    (x.term.assign s.solution).extent < (y.term.assign s.solution).extent := by
  rw [← h.assign_deref y]
  exact Term.extent_assign_lt (Occurrence.term_mem_args hunder)

/-- In an acyclic substitution nothing stands below the term to which it is followed, wherever that
term is. -/
theorem Acyclic.not_transGen_under (h : s.Acyclic) (hterm : o.term = (s.deref x).term) :
    ¬ Relation.TransGen s.Under x o := by
  intro hbelow
  have hlt : ∀ {x y}, Relation.TransGen s.Under x y →
      (x.term.assign s.solution).extent < (y.term.assign s.solution).extent := by
    intro x y hbelow
    induction hbelow with
    | single hunder => exact h.extent_lt_of_under hunder
    | tail _ hunder ih => exact ih.trans (h.extent_lt_of_under hunder)
  have hless := hlt hbelow
  rw [hterm, h.assign_deref x] at hless
  exact Nat.lt_irrefl _ hless

/-- More bindings leave in its place what stands below. -/
theorem Retains.under (h : s.Retains s') (hs' : s'.Settles) (hunder : s.Under x y) :
    s'.Under x y := by
  rw [Under, h.deref_eq hs' (Occurrence.slot?_of_mem_args hunder)]
  exact hunder

/-- Steps that differ in nothing but the places of terms. -/
inductive Alike : PairStep → PairStep → Prop
  /-- Both pairs are skipped. -/
  | skip : Alike .skip .skip
  /-- Both pairs are refused. -/
  | clash : Alike .clash .clash
  /-- A variable is bound to one term. -/
  | bind {v : Var} {value value' : Occurrence} (h : value.term = value'.term) :
      Alike (.bind v value) (.bind v value')
  /-- The arguments of the same terms are gone through. -/
  | descend {a b a' b' : Occurrence} {remember : Bool} (ha : a.term = a'.term)
      (hb : b.term = b'.term) : Alike (.descend a b remember) (.descend a' b' remember)

/-- Without a glance the terms alone decide what a pair calls for at the start. -/
theorem pairStep_alike {l' r' : Occurrence} (hl : l.term = l'.term) (hr : r.term = r'.term) :
    Alike (s.pairStep .plain true [] l r) (s.pairStep .plain true [] l' r') := by
  have hleft : (s.deref l).term = (s.deref l').term := deref_congr hl
  have hright : (s.deref r).term = (s.deref r').term := deref_congr hr
  rw [pairStep, pairStep, Layout.sameReference, Layout.sameReference, hl, hr]
  dsimp only
  rw [hleft, hright]
  simp only [Layout.drops_plain, Bool.not_true, Bool.false_and, Bool.false_eq_true, if_false]
  cases ha : (s.deref l').term <;> cases hb : (s.deref r').term <;> dsimp only <;>
    (try split_ifs) <;> constructor <;> assumption

/-- Going through the pair with the occurs check, and without a glance, binds nothing. -/
inductive Solved (s : Substitution) : Occurrence → Occurrence → Prop
  /-- The pair is skipped. -/
  | skip {l r : Occurrence} (hstep : s.pairStep .plain true [] l r = .skip) : Solved s l r
  /-- A variable without a slot would be bound. -/
  | idle {l r value : Occurrence} {v : Var} (hstep : s.pairStep .plain true [] l r = .bind v value)
      (hindex : v.index = none) : Solved s l r
  /-- All pairs of arguments are solved. -/
  | descend {l r a b : Occurrence} {remember : Bool}
      (hstep : s.pairStep .plain true [] l r = .descend a b remember)
      (hargs : ∀ p ∈ a.args.zip b.args, Solved s p.1 p.2) : Solved s l r

/-- A solved pair is not refused wherever terms are stored, binds nothing, and its arguments are
solved. -/
theorem Solved.step (h : s.Solved l r) (layout : Layout) :
    match s.pairStep layout true [] l r with
    | .skip => True
    | .clash => False
    | .bind v _ => v.index = none
    | .descend a b _ => ∀ p ∈ a.args.zip b.args, s.Solved p.1 p.2 := by
  rcases s.pairStep_eq_or_skip layout true [] l r with hskip | heq
  · rw [hskip]
    trivial
  · rw [heq]
    cases h with
    | skip hstep => rw [hstep]; trivial
    | idle hstep hindex => rw [hstep]; exact hindex
    | descend hstep hargs => rw [hstep]; exact hargs

/-- Where a pair stands does not matter for whether it is solved. -/
theorem Solved.congr {l' r' : Occurrence} (h : s.Solved l r) (hl : l.term = l'.term)
    (hr : r.term = r'.term) : s.Solved l' r' := by
  induction h generalizing l' r' with
  | skip hstep =>
    have halike := pairStep_alike (s := s) hl hr
    rw [hstep] at halike
    generalize hstep' : s.pairStep .plain true [] l' r' = step at halike
    cases halike
    exact .skip hstep'
  | idle hstep hindex =>
    have halike := pairStep_alike (s := s) hl hr
    rw [hstep] at halike
    generalize hstep' : s.pairStep .plain true [] l' r' = step at halike
    cases halike
    exact .idle hstep' hindex
  | descend hstep hargs ih =>
    have halike := pairStep_alike (s := s) hl hr
    rw [hstep] at halike
    generalize hstep' : s.pairStep .plain true [] l' r' = step at halike
    cases halike with
    | descend ha hb =>
      refine .descend hstep' fun p' hp' => ?_
      obtain ⟨p, hp, hfst, hsnd⟩ := Occurrence.exists_mem_zip_args ha hb hp'
      exact ih p hp hfst hsnd

/-- Where both sides are one node, only the arguments have to be solved. -/
theorem solved_of_sameNode (hnode : (s.deref l).term.sameNode (s.deref r).term = true)
    (hargs : ∀ p ∈ (s.deref l).args.zip (s.deref r).args, s.Solved p.1 p.2) : s.Solved l r := by
  have hvar := Occurrence.isVar_of_sameNode hnode
  have htreats := s.treats_pairStep .plain true [] l r
  generalize hstep : s.pairStep .plain true [] l r = step at htreats
  cases htreats with
  | constant | shared | anonymous | leaf => exact .skip hstep
  | met hcheck => cases hcheck
  | link hl hr hv hw hsame =>
    rw [hl, hr, Term.sameNode, hsame] at hnode
    cases hnode
  | assign hside ha hb | cyclic hside ha hb =>
    rcases hside with ⟨rfl, rfl⟩ | ⟨rfl, rfl⟩
    · exact absurd ha (Occurrence.ne_var (hvar.trans hb) _)
    · exact absurd ha (Occurrence.ne_var (hvar.symm.trans hb) _)
  | differ _ _ hdiffer =>
    rw [hdiffer] at hnode
    cases hnode
  | descend => exact .descend hstep hargs

/-- A variable without a slot on the left would be bound to whatever stands on the right, and on
the right to whatever is no variable: nothing happens. -/
theorem solved_of_unindexed (hindex : v.index = none)
    (hside : (s.deref l).term = .var v ∨ (s.deref r).term = .var v ∧ (s.deref l).isVar = false) :
    s.Solved l r := by
  have hoccurs : ∀ t, s.occurs v t = false := fun t => by
    rw [← Bool.not_eq_true, occurs_iff]
    simp [hindex]
  cases hconstant : l.term.sameConstant r.term with
  | true => exact .skip (pairStep_of_constant hconstant)
  | false =>
    rcases hside with hv | ⟨hv, hnode⟩
    · cases hvar : (s.deref r).isVar with
      | true =>
        obtain ⟨w, hw⟩ := Occurrence.exists_var_of_isVar hvar
        have hstep : s.pairStep .plain true [] l r = _ := pairStep_of_vars hconstant hv hw
        split at hstep
        · exact .skip hstep
        · exact .idle hstep hindex
      | false =>
        have hstep : s.pairStep .plain true [] l r = _ := pairStep_of_left hv hvar hconstant
        rw [hoccurs, Bool.and_false, if_neg Bool.false_ne_true] at hstep
        split at hstep
        · exact .skip hstep
        · exact .idle hstep hindex
    · have hstep : s.pairStep .plain true [] l r = _ := pairStep_of_right hnode hv hconstant
      rw [hoccurs, Bool.and_false, if_neg Bool.false_ne_true] at hstep
      split at hstep
      · exact .skip hstep
      · exact .idle hstep hindex

/-- Both sides end at the same term, or at variables with the same slot. -/
def EndsAlike (s : Substitution) (l r : Occurrence) : Prop :=
  (s.deref l).term = (s.deref r).term ∨
    ∃ slot, (s.deref l).slot? = some slot ∧ (s.deref r).slot? = some slot

/-- Variables with the same slot end alike. -/
theorem Settles.endsAlike_of_slot? (h : s.Settles) (hl : l.slot? = some slot)
    (hr : r.slot? = some slot) : s.EndsAlike l r := by
  rcases h.deref_eq_root hl with heq | ⟨hfree, heq⟩
  · rcases h.deref_eq_root hr with heq' | ⟨hfree, heq'⟩
    · exact Or.inl (congrArg Occurrence.term (heq.trans heq'.symm))
    · refine Or.inr ⟨slot, ?_, by rw [heq', hr]⟩
      rw [heq, root_of_free hfree, Occurrence.slot?_ofSlot]
  · refine Or.inr ⟨slot, by rw [heq, hl], ?_⟩
    rw [h.slot?_deref hr, root_of_free hfree, Occurrence.slot?_ofSlot]

/-- A pair whose sides end alike is solved. -/
theorem Steady.solved_of_endsAlike (h : s.Steady) (hl : l.term.isStable)
    (hends : s.EndsAlike l r) : s.Solved l r := by
  induction hextent : (l.term.assign s.solution).extent using Nat.strongRecOn generalizing l r with
  | ind n ih =>
    subst hextent
    rcases hends with heq | ⟨slot, hslot, hslot'⟩
    · have hstable := h.isStable_deref hl
      have hsame := Term.same_self (Term.isNaNFree_of_isStable hstable)
      refine solved_of_sameNode (heq ▸ (Term.same_iff.1 hsame).1) fun p hp => ?_
      have harg : p.1 ∈ (s.deref l).args := (List.of_mem_zip hp).1
      exact ih _ (h.acyclic.extent_lt_of_under harg)
        (Term.isStable_of_mem_args hstable (Occurrence.term_mem_args harg))
        (Or.inl (deref_congr (Occurrence.term_eq_of_mem_zip_args heq p hp))) rfl
    · obtain ⟨v, hv, hindex⟩ := Occurrence.exists_var_of_slot? hslot
      obtain ⟨w, hw, hindex'⟩ := Occurrence.exists_var_of_slot? hslot'
      refine solved_of_sameNode ?_ fun p hp => ?_
      · rw [hv, hw, Term.sameNode]
        exact (Var.same_iff_index hindex).2 hindex'
      · rw [Occurrence.args, hv] at hp
        simp [Term.args, Occurrence.series] at hp

/-- A stable pair that is skipped is solved, also where it is skipped because it is one term in one
place. -/
theorem Steady.solved_of_skip (h : s.Steady) (hl : l.term.isStable)
    (hstep : s.pairStep layout true [] l r = .skip) : s.Solved l r := by
  have htreats := s.treats_pairStep layout true [] l r
  rw [hstep] at htreats
  cases htreats with
  | constant hconstant => exact .skip (pairStep_of_constant hconstant)
  | shared hdrops =>
    have hterm := Layout.term_eq_of_drops hdrops
    exact h.solved_of_endsAlike hl (Or.inl hterm)
  | anonymous hside hv => exact .skip (pairStep_of_anonymous hside hv)
  | leaf hnode hargs =>
    refine solved_of_sameNode hnode fun p hp => ?_
    rw [Occurrence.args, hargs] at hp
    simp [Occurrence.series] at hp
  | met hcheck => cases hcheck

/-- A binding that a stable pair calls for keeps a substitution steady. -/
theorem Steady.bind {entered : List (Occurrence × Occurrence)} (h : s.Steady)
    (hl : l.term.isStable) (hr : r.term.isStable)
    (htreats : s.Treats layout true entered l r (.bind v value)) : (s.bind v value).Steady := by
  refine ⟨htreats.acyclic_bind h.acyclic, ?_⟩
  have hvalue : value.term.isStable := by
    rcases htreats.bind_sides with ⟨_, rfl⟩ | ⟨_, rfl⟩
    · exact h.isStable_deref hr
    · exact h.isStable_deref hl
  rw [Substitution.bind]
  cases v.index with
  | none => exact h.stable
  | some slot => exact List.forall_mem_cons.2 ⟨hvalue, h.stable⟩

/-- After the binding that a pair calls for, the pair is solved. -/
theorem Steady.solved_bind (h : s.Steady) (hl : l.term.isStable) (hr : r.term.isStable)
    (hstep : s.pairStep layout true [] l r = .bind v value) : (s.bind v value).Solved l r := by
  have htreats := s.treats_pairStep layout true [] l r
  have hplain := s.pairStep_eq_or_skip layout true [] l r
  rw [hstep] at htreats hplain
  have hsteady := h.bind hl hr htreats
  obtain ⟨hsettled, hfree⟩ := htreats.bind_free h.acyclic.settles
  obtain ⟨_, hself⟩ := htreats.bind_named
  rw [Substitution.bind] at hsteady ⊢
  cases hindex : v.index with
  | none =>
    rcases hplain with hskip | hstep
    · cases hskip
    · exact .idle hstep.symm hindex
  | some slot =>
    rw [hindex] at hsteady
    have hderef := h.acyclic.settles.deref_extend (hfree slot hindex) hsettled (hself slot hindex)
    refine hsteady.solved_of_endsAlike hl (Or.inl (congrArg Occurrence.term ?_))
    rw [hderef, hderef]
    rcases htreats.bind_sides with ⟨hv, rfl⟩ | ⟨hv, rfl⟩
    · have hslot : (s.deref l).slot? = some slot := by rw [Occurrence.slot?, hv, Term.slot?, hindex]
      rw [if_pos hslot, if_neg (hself slot hindex)]
    · have hslot : (s.deref r).slot? = some slot := by rw [Occurrence.slot?, hv, Term.slot?, hindex]
      rw [if_pos hslot, if_neg (hself slot hindex)]

/-- A pair of compound terms is solved in a longer substitution when their arguments are. -/
theorem Retains.solved_of_descend {a b : Occurrence} {remember : Bool} (h : s.Retains s')
    (hs' : s'.Settles) (hstep : s.pairStep layout true [] l r = .descend a b remember)
    (hargs : ∀ p ∈ a.args.zip b.args, s'.Solved p.1 p.2) : s'.Solved l r := by
  have htreats := s.treats_pairStep layout true [] l r
  rw [hstep] at htreats
  cases htreats with
  | descend hl hr hlength =>
    have hleft := h.deref_eq hs' (by rw [Occurrence.slot?, hl]; rfl)
    have hright := h.deref_eq hs' (by rw [Occurrence.slot?, hr]; rfl)
    refine solved_of_sameNode ?_ fun p hp => hargs p (by rwa [hleft, hright] at hp)
    rw [hleft, hright, hl, hr]
    simp [Term.sameNode, hlength]

/-- What is solved remains so when more is bound. -/
theorem Solved.retains (hsolved : s.Solved l r) (h : s.Retains s') (hs : s.Steady) (hs' : s'.Steady)
    (hl : l.term.isStable) (hr : r.term.isStable) : s'.Solved l r := by
  have hsettles' := hs'.acyclic.settles
  induction hsolved with
  | @skip l r hstep =>
    have htreats := s.treats_pairStep .plain true [] l r
    rw [hstep] at htreats
    cases htreats with
    | constant hconstant => exact .skip (pairStep_of_constant hconstant)
    | shared hdrops => cases hdrops
    | @anonymous v hside hv =>
      -- The anonymous variable has no slot here, so it is not bound later.
      have hkeeps : ∀ {o : Occurrence}, o.term.isStable → (s.deref o).term = .var v →
          (s'.deref o).term = .var v := by
        intro o ho hterm
        have hstable := hs.isStable_deref ho
        rw [hterm, Term.isStable_var, Var.isStable, hv, Bool.not_true, Bool.or_false,
          Option.isNone_iff_eq_none] at hstable
        rw [h.deref_eq hsettles' (by rw [Occurrence.slot?, hterm, Term.slot?, hstable]), hterm]
      exact .skip (pairStep_of_anonymous (hside.imp (hkeeps hl) (hkeeps hr)) hv)
    | leaf hnode hargs =>
      have hsame := Occurrence.slot?_of_sameNode hnode
      cases hslot : (s.deref l).slot? with
      | some slot =>
        have hends := hsettles'.endsAlike_of_slot? hslot (hsame.symm.trans hslot)
        rw [EndsAlike, h.deref_deref hsettles', h.deref_deref hsettles'] at hends
        exact hs'.solved_of_endsAlike hl hends
      | none =>
        have hleft := h.deref_eq hsettles' hslot
        have hright := h.deref_eq hsettles' (hsame.symm.trans hslot)
        refine solved_of_sameNode (by rw [hleft, hright, hnode]) fun p hp => ?_
        rw [hleft, Occurrence.args, hargs] at hp
        simp [Occurrence.series] at hp
    | met hcheck => cases hcheck
  | @idle l r value v hstep hindex =>
    have htreats := s.treats_pairStep .plain true [] l r
    rw [hstep] at htreats
    have hkeeps : ∀ {o : Occurrence}, (s.deref o).term = .var v → (s'.deref o).term = .var v := by
      intro o hterm
      rw [h.deref_eq hsettles' (by rw [Occurrence.slot?, hterm, Term.slot?, hindex]), hterm]
    refine solved_of_unindexed hindex ?_
    cases htreats with
    | link hterm => exact Or.inl (hkeeps hterm)
    | assign hside ha hb =>
      rcases hside with ⟨rfl, rfl⟩ | ⟨rfl, rfl⟩
      · exact Or.inl (hkeeps ha)
      · refine Or.inr ⟨hkeeps ha, ?_⟩
        rwa [h.deref_eq hsettles' (Occurrence.slot?_of_isVar_eq_false hb)]
  | @descend l r a b remember hstep hargs ih =>
    refine h.solved_of_descend hsettles' hstep fun p hp => ?_
    have htreats := s.treats_pairStep .plain true [] l r
    rw [hstep] at htreats
    cases htreats with
    | descend =>
      obtain ⟨hfst, hsnd⟩ := hs.isStable_args hl hr p hp
      exact ih p hp hfst hsnd

end Substitution

end ClauseResolution
