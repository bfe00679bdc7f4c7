import ClauseResolution.Proofs.Term.Anonymous
import ClauseResolution.Proofs.Unification.Termination

/-!
# Shared terms

A glance at the addresses tells that two occurrences are one compound term in one place, and then a
unification drops the pair without looking at the arguments. That glance makes no difference: a term
without a number that is not a number is unified with a copy of itself in as many steps as it has
nodes, whatever was entered, and nothing is bound or remembered on the way.
-/

namespace ClauseResolution

namespace Substitution

variable {s : Substitution} {l r o value : Occurrence} {v : Var} {slot : Nat} {layout : Layout}
  {occursCheck : Bool}

/-- No value contains a number that is not a number. -/
def NaNFree (s : Substitution) : Prop :=
  ∀ slot value, s.valueAt slot = some value → value.term.isNaNFree

/-- Binding a value without such numbers brings none into a substitution. -/
theorem NaNFree.extend (h : s.NaNFree) (hvalue : value.term.isNaNFree) :
    (s.extend slot value).NaNFree := by
  intro i other hother
  rw [valueAt_extend] at hother
  split at hother
  · cases hother
    exact hvalue
  · exact h i other hother

/-- Without such numbers in the substitution, none is met on the way from variable to variable. -/
theorem NaNFree.deref (h : s.NaNFree) (ho : o.term.isNaNFree) : (s.deref o).term.isNaNFree := by
  rcases s.deref_eq_or_valueAt o with heq | ⟨slot, hvalue⟩
  · rwa [heq]
  · exact h slot _ hvalue

/-- The binding that a pair calls for is one to what one of the sides is followed to. -/
theorem NaNFree.bind {entered : List (Occurrence × Occurrence)} (h : s.NaNFree)
    (hl : l.term.isNaNFree) (hr : r.term.isNaNFree)
    (htreats : s.Treats layout occursCheck entered l r (.bind v value)) :
    (s.bind v value).NaNFree := by
  have hvalue : value.term.isNaNFree := by
    rcases htreats.bind_sides with ⟨_, rfl⟩ | ⟨_, rfl⟩
    · exact h.deref hr
    · exact h.deref hl
  rw [Substitution.bind]
  cases v.index with
  | none => exact h
  | some slot => exact h.extend hvalue

/-- The arguments that a pair calls for are those of what the sides are followed to. -/
theorem NaNFree.forall_zip_args {entered : List (Occurrence × Occurrence)} {a b : Occurrence}
    {remember : Bool} (h : s.NaNFree) (hl : l.term.isNaNFree) (hr : r.term.isNaNFree)
    (htreats : s.Treats layout occursCheck entered l r (.descend a b remember)) :
    ∀ p ∈ a.args.zip b.args, p.1.term.isNaNFree ∧ p.2.term.isNaNFree := by
  cases htreats with
  | descend =>
    exact Occurrence.forall_zip_args (motive := fun t => t.isNaNFree) Term.isNaNFree_of_mem_args
      (h.deref hl) (h.deref hr)

/-- What has no slot is followed nowhere. -/
theorem deref_of_slot?_eq_none (h : o.slot? = none) : s.deref o = o :=
  deref_of_settled (by rw [Settled, follow, h, Option.bind_none])

/-- Without a glance a pair of equal terms is dropped, or its arguments are gone through. -/
theorem pairStep_of_term_eq (h : l.term = r.term) (hfree : l.term.isNaNFree) :
    s.pairStep .plain occursCheck [] l r = .skip ∨
      s.pairStep .plain occursCheck [] l r = .descend l r false := by
  cases hterm : l.term with
  | atom name => exact Or.inl (pairStep_of_constant (by simp [← h, hterm, Term.sameConstant]))
  | number n =>
    have hl : s.deref l = l := deref_of_slot?_eq_none (by rw [Occurrence.slot?, hterm]; rfl)
    have hr : s.deref r = r := deref_of_slot?_eq_none (by rw [Occurrence.slot?, ← h, hterm]; rfl)
    have hsame : n.same n = true := Number.same_self (by simpa [Term.isNaNFree, hterm] using hfree)
    exact Or.inl (by simp [pairStep, hl, hr, ← h, hterm, hsame])
  | var v =>
    cases hindex : v.index with
    | some slot =>
      exact Or.inl (pairStep_of_constant (by simp [← h, hterm, Term.sameConstant, hindex]))
    | none =>
      have hslot : (Term.var v).slot? = none := hindex
      have hl : s.deref l = l := deref_of_slot?_eq_none (by rw [Occurrence.slot?, hterm, hslot])
      have hr : s.deref r = r :=
        deref_of_slot?_eq_none (by rw [Occurrence.slot?, ← h, hterm, hslot])
      exact Or.inl (by simp [pairStep, hl, hr, ← h, hterm, v.same_self])
  | compound functor args varCount =>
    have hl : s.deref l = l := deref_of_slot?_eq_none (by rw [Occurrence.slot?, hterm]; rfl)
    have hr : s.deref r = r := deref_of_slot?_eq_none (by rw [Occurrence.slot?, ← h, hterm]; rfl)
    exact Or.inr (by simp [pairStep, Layout.sameReference, hl, hr, ← h, hterm, Term.sameConstant,
      Occurrence.isVar])

end Substitution

/-- Two occurrences of one term, which contains no number that is not a number. -/
def IsTwin (p : Occurrence × Occurrence) : Prop := p.1.term = p.2.term ∧ p.1.term.isNaNFree

section Twins

variable {layout : Layout} {σ : Store} {c : Context} {occursCheck : Bool} {s : Substitution}
  {l r : Occurrence}

/-- The arguments of two occurrences of one term are two occurrences of one term each. -/
theorem IsTwin.args (h : IsTwin (l, r)) : ∀ p ∈ l.args.zip r.args, IsTwin p := fun p hp =>
  ⟨Occurrence.term_eq_of_mem_zip_args h.1 p hp,
    Term.isNaNFree_of_mem_args h.2 (Occurrence.term_mem_args (List.of_mem_zip hp).1)⟩

/-- The terms of the pairs of arguments are the arguments. -/
theorem map_term_zip_args (h : l.term = r.term) :
    (l.args.zip r.args).map (fun p => p.1.term) = l.term.args := by
  have hlength : l.args.length ≤ r.args.length := by
    rw [Occurrence.length_args, Occurrence.length_args, h]
  have hfst : (l.args.zip r.args).map Prod.fst = l.args := List.map_fst_zip hlength
  calc (l.args.zip r.args).map (fun p => p.1.term)
      = ((l.args.zip r.args).map Prod.fst).map Occurrence.term := (List.map_map).symm
    _ = l.term.args := by rw [hfst, Occurrence.map_term_args]

/-- A pair of twins is dropped, or its arguments are gone through. -/
theorem IsTwin.pairStep (h : IsTwin (l, r)) (layout : Layout)
    (entered : List (Occurrence × Occurrence)) :
    s.pairStep layout occursCheck entered l r = .skip ∨
      s.pairStep layout occursCheck entered l r = .descend l r false := by
  rcases s.pairStep_eq_or_skip layout occursCheck entered l r with hskip | heq
  · exact Or.inl hskip
  · rw [heq]
    exact Substitution.pairStep_of_term_eq h.1 h.2

/-- Twins are done with, whatever is pending behind them, in as many steps as they have nodes.
Nothing is bound, and nothing is remembered. -/
theorem unifyPairs_twins (h : (σ.substitution c).Settles) (layout : Layout) (occursCheck : Bool)
    (entered : List (Occurrence × Occurrence)) :
    ∀ pairs : List (Occurrence × Occurrence), (∀ p ∈ pairs, IsTwin p) →
    ∃ done ≤ Term.countNodes 0 (pairs.map fun p => p.1.term), ∀ pending steps,
      unifyPairs layout occursCheck (steps + done) σ c entered (pairs ++ pending) =
        unifyPairs layout occursCheck steps σ c entered pending
  | [], _ => ⟨0, Nat.zero_le _, fun _ _ => rfl⟩
  | (l, r) :: rest, hpairs => by
    obtain ⟨htwin, hrest⟩ := List.forall_mem_cons.1 hpairs
    have hargs : (l.args.zip r.args).map (fun p => p.1.term) = l.term.args :=
      map_term_zip_args htwin.1
    have hsize := Term.countNodes_cons l.term (rest.map fun p => p.1.term)
    have hnodes := l.term.size_eq
    rcases htwin.pairStep layout entered with hstep | hstep
    · obtain ⟨done, hle, hrun⟩ := unifyPairs_twins h layout occursCheck entered rest hrest
      refine ⟨done + 1, by rw [List.map_cons]; dsimp only; omega, fun pending steps => ?_⟩
      rw [List.cons_append, ← Nat.add_assoc, Store.unifyPairs_cons (Store.deref_eq h), hstep]
      exact hrun pending steps
    · obtain ⟨done, hle, hrun⟩ := unifyPairs_twins h layout occursCheck entered
        (l.args.zip r.args ++ rest) (List.forall_mem_append.2 ⟨htwin.args, hrest⟩)
      rw [List.map_append, hargs, Term.countNodes_append, ← Nat.zero_add (Term.countNodes 0 _),
        Term.countNodes_add] at hle
      refine ⟨done + 1, by rw [List.map_cons]; dsimp only; omega, fun pending steps => ?_⟩
      rw [List.cons_append, ← Nat.add_assoc, Store.unifyPairs_cons (Store.deref_eq h), hstep]
      dsimp only
      rw [if_neg Bool.false_ne_true, ← List.append_assoc]
      exact hrun pending steps
termination_by pairs => Term.extents (pairs.map fun p => p.1.term)
decreasing_by
  · simp only [List.map_cons, Term.extents]
    omega
  · have hextent := l.term.extent_eq
    simp only [List.map_cons, List.map_append, hargs, Term.extents_append, Term.extents]
    omega

/-- A term is unified with a copy of itself without a change to the context, within as many steps
as it has nodes. -/
theorem IsTwin.unify (htwin : IsTwin (l, r)) (h : (σ.substitution c).Settles) {steps : Nat}
    (hsteps : l.term.size ≤ steps) :
    ClauseResolution.unify layout occursCheck steps σ c l r = .unified σ c := by
  obtain ⟨done, hle, hrun⟩ := unifyPairs_twins h layout occursCheck [] [(l, r)]
    (List.forall_mem_singleton.2 htwin)
  have hdone : done ≤ steps := hle.trans hsteps
  have hend := hrun [] (steps - done)
  rw [Nat.sub_add_cancel hdone] at hend
  rw [ClauseResolution.unify, unifyAll, ← List.append_nil [(l, r)], hend, unifyPairs]

end Twins

namespace Layout

variable {layout : Layout} {σ : Store} {c : Context} {occursCheck : Bool} {s : Substitution}
  {l r : Occurrence} {entered entered' pending : List (Occurrence × Occurrence)}

/-- The same pairs were met, apart from those that stand in one place. -/
def MetAlike (layout : Layout) (entered entered' : List (Occurrence × Occurrence)) : Prop :=
  ∀ a b, layout.shares a b = false → layout.met entered a b = layout.met entered' a b

/-- A list of pairs meets the same pairs as itself. -/
theorem MetAlike.refl (layout : Layout) (entered : List (Occurrence × Occurrence)) :
    layout.MetAlike entered entered := fun _ _ _ => rfl

/-- Both may enter a pair. -/
theorem MetAlike.enter (h : layout.MetAlike entered entered') (remember : Bool)
    (p : Occurrence × Occurrence) :
    layout.MetAlike (if remember then p :: entered else entered)
      (if remember then p :: entered' else entered') := by
  cases remember with
  | false => exact h
  | true =>
    intro a b hne
    have hrest := h a b hne
    rw [met, met] at hrest ⊢
    rw [if_pos rfl, if_pos rfl, List.any_cons, List.any_cons, hrest]

/-- What stands in one place stands in one place with whatever else is there. -/
theorem shares_of_shares {a b : Occurrence} (h : layout.shares l r = true)
    (ha : layout.shares l a = true) (hb : layout.shares r b = true) : layout.shares a b = true := by
  simp only [shares, Bool.and_eq_true, beq_iff_eq] at *
  exact ⟨⟨ha.1.2, hb.1.2⟩, ha.2.symm.trans (h.2.trans hb.2)⟩

/-- One may enter a pair that stands in one place. -/
theorem MetAlike.enter_right (h : layout.MetAlike entered entered')
    (hshares : layout.shares l r = true) (remember : Bool) :
    layout.MetAlike entered (if remember then (l, r) :: entered' else entered') := by
  cases remember with
  | false => exact h
  | true =>
    intro a b hne
    have hother : (layout.shares l a && layout.shares r b) = false := by
      rw [Bool.eq_false_iff]
      intro hboth
      obtain ⟨ha, hb⟩ := Bool.and_eq_true_iff.1 hboth
      rw [shares_of_shares hshares ha hb] at hne
      cases hne
    have hrest := h a b hne
    rw [met, met] at hrest ⊢
    rw [if_pos rfl, List.any_cons, hother, Bool.false_or, hrest]

/-- What stands in one place is twins. -/
theorem isTwin_of_shares (h : layout.shares l r = true) (hl : l.term.isNaNFree) : IsTwin (l, r) :=
  ⟨term_eq_of_shares h, hl⟩

/-- With the glance a pair calls for what it calls for without, or else it is dropped where twins
in one place are gone through. -/
theorem pairStep_glancing_cases (h : layout.MetAlike entered entered') (hs : s.NaNFree)
    (hl : l.term.isNaNFree) :
    s.pairStep (layout.glancing true) occursCheck entered l r =
        s.pairStep (layout.glancing false) occursCheck entered' l r ∨
      s.pairStep (layout.glancing true) occursCheck entered l r = .skip ∧
        ∃ a b remember,
          s.pairStep (layout.glancing false) occursCheck entered' l r = .descend a b remember ∧
            IsTwin (a, b) ∧ layout.shares a b = true := by
  have hglance : ∀ a b, (layout.glancing true).drops a b = layout.shares a b := fun _ _ => rfl
  have hnone : ∀ a b, (layout.glancing false).drops a b = false := fun _ _ => rfl
  have hmet : ∀ b pairs x y, (layout.glancing b).met pairs x y = layout.met pairs x y :=
    fun _ _ _ _ => rfl
  cases hraw : layout.shares l r with
  | true =>
    have htwin := isTwin_of_shares hraw hl
    have hskip : s.pairStep (layout.glancing true) occursCheck entered l r = .skip := by
      rw [s.pairStep_eq (layout.glancing true), hglance, hraw, if_pos rfl]
    have hpair : s.pairStep (layout.glancing false) occursCheck entered' l r = .skip ∨
        s.pairStep (layout.glancing false) occursCheck entered' l r = .descend l r false :=
      htwin.pairStep (layout.glancing false) entered'
    rcases hpair with hstep | hstep
    · exact Or.inl (hskip.trans hstep.symm)
    · exact Or.inr ⟨hskip, l, r, false, hstep, htwin, hraw⟩
  | false =>
    have htreats := s.treats_pairStep .plain occursCheck [] l r
    rw [s.pairStep_eq (layout.glancing true), s.pairStep_eq (layout.glancing false), hglance, hnone,
      hraw, if_neg Bool.false_ne_true, if_neg Bool.false_ne_true]
    cases hstep : s.pairStep .plain occursCheck [] l r with
    | skip | clash | bind => exact Or.inl rfl
    | descend a b remember =>
      dsimp only
      rw [hglance, hnone, hmet, hmet, if_neg Bool.false_ne_true]
      cases hshares : layout.shares a b with
      | false => exact Or.inl (by rw [if_neg Bool.false_ne_true, h a b hshares])
      | true =>
        rw [hstep] at htreats
        rw [if_pos rfl]
        split_ifs
        · exact Or.inl rfl
        · cases htreats with
          | descend =>
            exact Or.inr ⟨rfl, _, _, _, rfl, isTwin_of_shares hshares (hs.deref hl), hshares⟩

/-- A unification with the glance ends as one without, which may take more steps. The two take the
same steps, until a pair in one place is met: such a pair is twins, and these are done with. -/
theorem exists_unifyPairs_glancing (layout : Layout) (occursCheck : Bool)
    (h : layout.MetAlike entered entered') (hc : σ.Holds c) (hsettles : (σ.substitution c).Settles)
    (hvalues : (σ.substitution c).NaNFree)
    (hpending : ∀ p ∈ pending, p.1.term.isNaNFree ∧ p.2.term.isNaNFree) (steps : Nat) :
    ∃ more ≥ steps, unifyPairs (layout.glancing false) occursCheck more σ c entered' pending =
      unifyPairs (layout.glancing true) occursCheck steps σ c entered pending := by
  induction steps generalizing σ c entered entered' pending with
  | zero =>
    refine ⟨0, le_refl _, ?_⟩
    cases pending with
    | nil => rw [unifyPairs, unifyPairs]
    | cons pair pending => rfl
  | succ steps ih =>
    cases pending with
    | nil => exact ⟨steps + 1, le_refl _, by rw [unifyPairs, unifyPairs]⟩
    | cons pair pending =>
      obtain ⟨l, r⟩ := pair
      obtain ⟨⟨hl, hr⟩, hrest⟩ := List.forall_mem_cons.1 hpending
      have hcons := Store.unifyPairs_cons (Store.deref_eq hsettles)
      rcases pairStep_glancing_cases h hvalues hl with hsame |
        ⟨hskip, a, b, remember, hdescend, htwin, hshares⟩
      · have htreats := (σ.substitution c).treats_pairStep (layout.glancing true) occursCheck
          entered l r
        cases hstep : (σ.substitution c).pairStep (layout.glancing true) occursCheck entered l
          r with
        | skip =>
          obtain ⟨more, hmore, hend⟩ := ih h hc hsettles hvalues hrest
          refine ⟨more + 1, Nat.succ_le_succ hmore, ?_⟩
          rw [hcons, hcons, ← hsame, hstep]
          exact hend
        | clash => exact ⟨steps + 1, le_refl _, by rw [hcons, hcons, ← hsame, hstep]⟩
        | bind v value =>
          rw [hstep] at htreats
          obtain ⟨_, hd, hsubst⟩ := Store.bind_of_treats hc htreats
          obtain ⟨more, hmore, hend⟩ := ih h hd (hsubst ▸ htreats.settles_bind hsettles)
            (hsubst ▸ hvalues.bind hl hr htreats) hrest
          refine ⟨more + 1, Nat.succ_le_succ hmore, ?_⟩
          rw [hcons, hcons, ← hsame, hstep]
          exact hend
        | descend a b remember =>
          rw [hstep] at htreats
          have hargs := hvalues.forall_zip_args hl hr htreats
          obtain ⟨more, hmore, hend⟩ := ih (h.enter remember (a, b)) hc hsettles hvalues
            (List.forall_mem_append.2 ⟨hargs, hrest⟩)
          refine ⟨more + 1, Nat.succ_le_succ hmore, ?_⟩
          rw [hcons, hcons, ← hsame, hstep]
          exact hend
      · obtain ⟨more, hmore, hend⟩ :=
          ih (h.enter_right hshares remember) hc hsettles hvalues hrest
        obtain ⟨done, _, hrun⟩ := unifyPairs_twins hsettles (layout.glancing false) occursCheck
          (if remember then (a, b) :: entered' else entered') (a.args.zip b.args) htwin.args
        refine ⟨more + done + 1, by omega, ?_⟩
        rw [hcons, hcons, hskip, hdescend]
        exact (hrun pending more).trans hend

/-- In a context in which following variables ends, and whose values contain no number that is not
a number, a term without such a number is unified with a copy of itself in either mode, wherever the
two are stored, and neither the store nor the context changes. So unification with the glance at
addresses ends in the same way as without, with the same store. -/
theorem glance_unobservable (layout : Layout) (hc : σ.Holds c)
    (h : (σ.substitution c).Settles)
    (hvalues : ∀ slot t, σ.lookup c slot = some t → t.isNaNFree) (occursCheck : Bool)
    (hl : l.term.isNaNFree) (hr : r.term.isNaNFree) :
    (l.term = r.term → ∀ glances steps, l.term.size ≤ steps →
      unify (layout.glancing glances) occursCheck steps σ c l r = .unified σ c) ∧
    ∀ result, result ≠ .unfinished →
      ((∃ steps, unify (layout.glancing true) occursCheck steps σ c l r = result) ↔
        ∃ steps, unify (layout.glancing false) occursCheck steps σ c l r = result) := by
  have hfree : (σ.substitution c).NaNFree := fun slot value hvalue => by
    rw [Store.valueAt_substitution] at hvalue
    exact hvalues slot value.term (by rw [Store.lookup, hvalue, Option.map_some])
  have hpair : ∀ p ∈ [(l, r)], p.1.term.isNaNFree ∧ p.2.term.isNaNFree :=
    List.forall_mem_singleton.2 ⟨hl, hr⟩
  have hmatch := layout.exists_unifyPairs_glancing occursCheck (.refl layout []) hc h hfree hpair
  refine ⟨fun heq glances steps hsteps => IsTwin.unify ⟨heq, hl⟩ h hsteps,
    fun result hresult => ⟨?_, ?_⟩⟩
  · rintro ⟨steps, hend⟩
    obtain ⟨more, _, hmore⟩ := hmatch steps
    exact ⟨more, hmore.trans hend⟩
  · rintro ⟨steps, rfl⟩
    obtain ⟨more, hle, hmore⟩ := hmatch steps
    exact ⟨steps, hmore.symm.trans (unifyPairs_mono hle hresult)⟩

/-- With `X` bound to `f(X)`, the term `g(X, _, Y, 1)` is unified with a copy of itself, also where
equal terms are stored once. -/
theorem glance_unobservable_cyclic :
    let x : Term := .var ⟨"X", some 0⟩
    let t : Term := .apply "g" [x, .var .anonymous, .var ⟨"Y", none⟩, .number (.int 1)]
    let σ : Store := ⟨#[⟨0, .whole 0 (.apply "f" [x]), 0⟩]⟩
    unify (byTerm.glancing true) false 5 σ ⟨1, 1⟩ (.whole 1 t) (.whole 2 t) = .unified σ ⟨1, 1⟩ ∧
      unify (byOccurrence.glancing true) false 5 σ ⟨1, 1⟩ (.whole 1 t) (.whole 2 t) =
        .unified σ ⟨1, 1⟩ := by
  intro x t σ
  have hsubst : σ.substitution ⟨1, 1⟩ =
      Substitution.extend ⟨[], 1⟩ 0 (.whole 0 (.apply "f" [x])) := by cbv
  have hsettles : (σ.substitution ⟨1, 1⟩).Settles := by
    rw [hsubst]
    exact (Substitution.settles_of_bindings_eq_nil rfl).extend rfl (by decide)
  have hvalues : ∀ slot u, σ.lookup ⟨1, 1⟩ slot = some u → u.isNaNFree := by
    intro slot u hlookup
    rw [Store.lookup, ← Store.valueAt_substitution, hsubst, Substitution.valueAt_extend] at hlookup
    split at hlookup
    · cases hlookup
      decide
    · cases hlookup
  have hcopy := fun layout : Layout => (glance_unobservable layout (σ := σ) (c := ⟨1, 1⟩)
    (l := .whole 1 t) (r := .whole 2 t) (Nat.le_refl 1) hsettles hvalues false (by decide)
    (by decide)).1 rfl true 5 (by cbv)
  exact ⟨hcopy byTerm, hcopy byOccurrence⟩

end Layout

end ClauseResolution
