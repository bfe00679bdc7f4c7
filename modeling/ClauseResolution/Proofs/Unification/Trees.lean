import ClauseResolution.Proofs.Substitution.Rational
import ClauseResolution.Proofs.Unification.MostGeneral

/-!
# Unchecked unification is exact over trees

Without the occurs check a unification may make a substitution cyclic, and then looks for
solutions in trees. Each step keeps the trees that satisfy the substitution and equate all
pending pairs. For the way back there is one more thing to see: a pair that was entered
before is dropped although nothing says that it is equal. It is equal up to a depth if
what was entered is, and what was entered is equal one level further down than its
arguments are; so all of it is equal up to every depth.
-/

namespace ClauseResolution

namespace Forest

/-- The trees make both sides of every pair equal as far down as a depth. -/
def EquatesUpTo (A : Forest) (depth : Nat) (pairs : List (Occurrence × Occurrence)) : Prop :=
  ∀ p ∈ pairs, Tree.AgreeUpTo depth (p.1.term.image A) (p.2.term.image A)

/-- The trees make both sides of every pair equal. -/
def Equates (A : Forest) (pairs : List (Occurrence × Occurrence)) : Prop :=
  ∀ depth, A.EquatesUpTo depth pairs

variable {A : Forest} {a b : Occurrence} {pairs more : List (Occurrence × Occurrence)} {depth : Nat}

/-- Trees make some pairs equal up to a depth when they do so for the first and for the others. -/
theorem equatesUpTo_cons : A.EquatesUpTo depth ((a, b) :: pairs) ↔
    Tree.AgreeUpTo depth (a.term.image A) (b.term.image A) ∧ A.EquatesUpTo depth pairs :=
  List.forall_mem_cons

/-- Trees make two lists of pairs equal up to a depth when they do so for each. -/
theorem equatesUpTo_append : A.EquatesUpTo depth (pairs ++ more) ↔
    A.EquatesUpTo depth pairs ∧ A.EquatesUpTo depth more := List.forall_mem_append

/-- Trees make some pairs equal when they do so for the first and for the others. -/
theorem equates_cons : A.Equates ((a, b) :: pairs) ↔
    (a.term.image A).Agree (b.term.image A) ∧ A.Equates pairs := by
  simp only [Equates, equatesUpTo_cons, forall_and]
  rfl

/-- Trees make two lists of pairs equal when they do so for each. -/
theorem equates_append : A.Equates (pairs ++ more) ↔ A.Equates pairs ∧ A.Equates more := by
  simp only [Equates, equatesUpTo_append, forall_and]

/-- Terms with the same node agree one level further down than their arguments. -/
theorem agreeUpTo_succ_iff_args (ha : a.slot? = none) (hb : b.slot? = none)
    (hplain : a.term.isPlain) (hplain' : b.term.isPlain) (hnode : a.term.sameNode b.term) :
    Tree.AgreeUpTo (depth + 1) (a.term.image A) (b.term.image A) ↔
      A.EquatesUpTo depth (a.args.zip b.args) := by
  have hlength : a.args.length = b.args.length := by
    rw [Occurrence.length_args, Occurrence.length_args, Term.length_args_of_sameNode hnode]
  rw [Term.agreeUpTo_succ_image_iff ha hb hplain hplain', and_iff_right hnode,
    ← a.map_term_args, ← b.map_term_args, List.forall₂_map_left_iff, List.forall₂_map_right_iff,
    List.forall₂_iff_zip, and_iff_right hlength]
  exact ⟨fun h p hp => h (a := p.1) (b := p.2) hp, fun h {a b} hmem => h (a, b) hmem⟩

/-- The arguments are equated exactly when the terms are. -/
theorem agree_iff_args (ha : a.slot? = none) (hb : b.slot? = none)
    (hplain : a.term.isPlain) (hplain' : b.term.isPlain) (hnode : a.term.sameNode b.term) :
    (a.term.image A).Agree (b.term.image A) ↔ A.Equates (a.args.zip b.args) := by
  have hsucc : ∀ depth, Tree.AgreeUpTo (depth + 1) (a.term.image A) (b.term.image A) ↔
      A.EquatesUpTo depth (a.args.zip b.args) := fun _ =>
    agreeUpTo_succ_iff_args ha hb hplain hplain' hnode
  refine ⟨fun h depth => (hsucc depth).1 (h (depth + 1)), fun h depth => ?_⟩
  exact ((hsucc depth).2 (h depth)).of_succ

/-- Trees satisfy a longer substitution when they satisfy it and the new binding. -/
theorem satisfies_extend_iff {s : Substitution} {slot : Nat} {value : Occurrence} :
    A.Satisfies (s.extend slot value) ↔
      (A slot).Agree (value.term.image A) ∧ A.Satisfies s := by
  constructor
  · intro h
    refine ⟨h slot value List.mem_cons_self, fun i other hmem => ?_⟩
    exact h i other (List.mem_cons_of_mem _ hmem)
  · rintro ⟨hnew, hold⟩ i other hmem
    rcases List.mem_cons.1 hmem with heq | hmem
    · cases heq
      exact hnew
    · exact hold i other hmem

end Forest

namespace Substitution

variable {s : Substitution} {A : Forest} {layout : Layout} {l r : Occurrence} {depth : Nat}
  {entered pending : List (Occurrence × Occurrence)}

/-- Two occurrences stand for trees that agree exactly when what they are followed to
does. -/
theorem Rational.agreeUpTo_iff_deref (h : s.Rational) (hA : A.NaNFree) (hs : A.Satisfies s)
    (hl : l.term.isPlain) (hr : r.term.isPlain) :
    Tree.AgreeUpTo depth (l.term.image A) (r.term.image A) ↔
      Tree.AgreeUpTo depth ((s.deref l).term.image A) ((s.deref r).term.image A) := by
  have hleft := h.agree_deref hA hs hl depth
  have hright := h.agree_deref hA hs hr depth
  exact ⟨fun hagree => (hleft.symm.trans hagree).trans hright,
    fun hagree => (hleft.trans hagree).trans hright.symm⟩

/-- The same for whole trees. -/
theorem Rational.agree_iff_deref (h : s.Rational) (hA : A.NaNFree) (hs : A.Satisfies s)
    (hl : l.term.isPlain) (hr : r.term.isPlain) :
    (l.term.image A).Agree (r.term.image A) ↔
      ((s.deref l).term.image A).Agree ((s.deref r).term.image A) :=
  forall_congr' fun _ => h.agreeUpTo_iff_deref hA hs hl hr

/-- A variable to which a plain occurrence is followed is named and has a slot. -/
theorem Rational.deref_var (h : s.Rational) {o : Occurrence} (ho : o.term.isPlain) {v : Var}
    (hterm : (s.deref o).term = .var v) :
    (∃ slot, v.index = some slot) ∧ v.isAnonymous = false := by
  have hplain := h.isPlain_deref ho
  rwa [hterm, Term.isPlain_var] at hplain

/-- A pair that is dropped is equal, as far down as what was entered is. -/
theorem Treats.agreeUpTo_of_skip {occursCheck : Bool}
    (htreats : s.Treats layout occursCheck entered l r .skip) (h : s.Rational)
    (hl : l.term.isPlain) (hr : r.term.isPlain) (hA : A.NaNFree) (hs : A.Satisfies s)
    (hentered : A.EquatesUpTo depth entered) :
    Tree.AgreeUpTo depth (l.term.image A) (r.term.image A) := by
  cases htreats with
  | constant hconstant =>
    obtain ⟨hnode, hargs⟩ := Term.sameNode_of_sameConstant hconstant
    exact Term.agree_image_of_sameNode hA hnode hargs hl hr depth
  | @anonymous v hside hv =>
    have hnamed : v.isAnonymous = false := by
      rcases hside with hside | hside
      · exact (h.deref_var hl hside).2
      · exact (h.deref_var hr hside).2
    rw [hv] at hnamed
    cases hnamed
  | leaf hnode hargs =>
    rw [h.agreeUpTo_iff_deref hA hs hl hr]
    exact Term.agree_image_of_sameNode hA hnode hargs (h.isPlain_deref hl) (h.isPlain_deref hr)
      depth
  | shared hdrops =>
    rw [h.agreeUpTo_iff_deref hA hs hl hr, ← Layout.term_eq_of_drops hdrops]
    exact .refl (Term.nanFree_image hA (Term.isNaNFree_of_isPlain (h.isPlain_deref hl)))
  | met _ _ _ hmet =>
    obtain ⟨p, hp, hleft, hright⟩ := Layout.exists_mem_of_met hmet
    rw [h.agreeUpTo_iff_deref hA hs hl hr, ← hleft, ← hright]
    exact hentered p hp

/-- No trees make a pair equal that is refused. -/
theorem Treats.not_agree_of_clash (htreats : s.Treats layout false entered l r .clash)
    (h : s.Rational) (hl : l.term.isPlain) (hr : r.term.isPlain) (hA : A.NaNFree)
    (hs : A.Satisfies s) :
    ¬ (l.term.image A).Agree (r.term.image A) := by
  rw [h.agree_iff_deref hA hs hl hr]
  cases htreats with
  | cyclic _ _ _ _ hcheck => cases hcheck
  | differ hvar hvar' hnode =>
    intro hagree
    have hroot := (Term.agreeUpTo_succ_image_iff (Occurrence.slot?_of_isVar_eq_false hvar)
      (Occurrence.slot?_of_isVar_eq_false hvar') (h.isPlain_deref hl) (h.isPlain_deref hr)).1
      (hagree 1)
    rw [hnode] at hroot
    cases hroot.1

/-- A binding is one of a free slot, and keeps a substitution rational. -/
theorem Treats.rational_bind {occursCheck : Bool} {v : Var} {value : Occurrence}
    (htreats : s.Treats layout occursCheck entered l r (.bind v value)) (h : s.Rational)
    (hl : l.term.isPlain) (hr : r.term.isPlain) :
    ∃ slot, v.index = some slot ∧ s.valueAt slot = none ∧ s.bind v value = s.extend slot value ∧
      (s.extend slot value).Rational := by
  obtain ⟨hsettled, hfree⟩ := htreats.bind_free h.settles
  have hself := htreats.bind_named.2
  have hsides : (Term.var v).isPlain ∧ value.term.isPlain := by
    rcases htreats.bind_sides with ⟨hside, rfl⟩ | ⟨hside, rfl⟩
    · exact ⟨hside ▸ h.isPlain_deref hl, h.isPlain_deref hr⟩
    · exact ⟨hside ▸ h.isPlain_deref hr, h.isPlain_deref hl⟩
  obtain ⟨⟨slot, hslot⟩, _⟩ := Term.isPlain_var.1 hsides.1
  refine ⟨slot, hslot, hfree slot hslot, by rw [bind, hslot], ?_⟩
  exact h.extend (hfree slot hslot) hsettled (hself slot hslot) hsides.2

/-- A binding says of trees what its pair said. -/
theorem Treats.forest_satisfies_bind_iff {occursCheck : Bool} {v : Var} {value : Occurrence}
    (htreats : s.Treats layout occursCheck entered l r (.bind v value)) (h : s.Rational)
    (hl : l.term.isPlain) (hr : r.term.isPlain) (hA : A.NaNFree) :
    A.Satisfies (s.bind v value) ↔
      A.Satisfies s ∧ (l.term.image A).Agree (r.term.image A) := by
  obtain ⟨slot, hslot, _, hbind, _⟩ := htreats.rational_bind h hl hr
  have hvar : (Term.var v).image A = A slot := Term.image_of_slot? (a := .var v) hslot
  rw [hbind, Forest.satisfies_extend_iff, and_comm, ← hvar]
  refine and_congr_right fun hs => ?_
  rw [h.agree_iff_deref hA hs hl hr]
  rcases htreats.bind_sides with ⟨hside, rfl⟩ | ⟨hside, rfl⟩
  · rw [hside]
  · rw [hside]
    exact ⟨Tree.Agree.symm, Tree.Agree.symm⟩

end Substitution

/-- What the end of an unchecked unification says of trees. Trees that satisfied the
substitution and equate the pending pairs satisfy the result, and there are none after a
clash. Trees that satisfy the result equate the pending pairs as far down as they equate
what was entered. -/
def Verdict.SolvesTrees (s : Substitution) (entered pending : List (Occurrence × Occurrence)) :
    Verdict → Prop
  | .unified s' => s'.Rational ∧ s'.top = s.top ∧ ∀ A : Forest, A.NaNFree →
      (A.Satisfies s ∧ A.Equates pending → A.Satisfies s') ∧
      (A.Satisfies s' → A.Satisfies s ∧
        ∀ depth, A.EquatesUpTo depth entered → A.EquatesUpTo depth pending)
  | .clash => ∀ A : Forest, A.NaNFree → ¬ (A.Satisfies s ∧ A.Equates pending)
  | .unfinished => True

namespace Substitution

variable {s s' : Substitution} {layout : Layout} {l r : Occurrence}
  {entered entered' pending pending' : List (Occurrence × Occurrence)}

/-- A step keeps what the end says when it does so in both directions: trees from before
remain, and what is equated up to a depth afterwards is so before. -/
theorem solvesTrees_of_step {verdict : Verdict} (h : verdict.SolvesTrees s' entered' pending')
    (htop : s'.top = s.top)
    (hforth : ∀ A : Forest, A.NaNFree → A.Satisfies s → A.Equates pending →
      A.Satisfies s' ∧ A.Equates pending')
    (hback : ∀ A : Forest, A.NaNFree → A.Satisfies s' → A.Satisfies s ∧
      ((∀ depth, A.EquatesUpTo depth entered' → A.EquatesUpTo depth pending') →
        ∀ depth, A.EquatesUpTo depth entered → A.EquatesUpTo depth pending)) :
    verdict.SolvesTrees s entered pending := by
  cases verdict with
  | unified last =>
    obtain ⟨hrational, htop', hA⟩ := h
    refine ⟨hrational, htop'.trans htop, fun A hfree => ⟨fun ⟨hs, hequates⟩ => ?_, fun hlast => ?_⟩⟩
    · exact (hA A hfree).1 (hforth A hfree hs hequates)
    · obtain ⟨hs', hdepth⟩ := (hA A hfree).2 hlast
      obtain ⟨hs, hbefore⟩ := hback A hfree hs'
      exact ⟨hs, hbefore hdepth⟩
  | clash => exact fun A hfree ⟨hs, hequates⟩ => h A hfree (hforth A hfree hs hequates)
  | unfinished => trivial

/-- Entering a pair is harmless: it is equal one level further down than its arguments. -/
theorem equatesUpTo_cons_of_args {A : Forest} (hl : l.slot? = none) (hr : r.slot? = none)
    (hplain : l.term.isPlain) (hplain' : r.term.isPlain) (hnode : l.term.sameNode r.term)
    (hargs : ∀ depth, A.EquatesUpTo depth ((l, r) :: entered) →
      A.EquatesUpTo depth (l.args.zip r.args ++ pending))
    {depth : Nat} (hentered : A.EquatesUpTo depth entered) :
    A.EquatesUpTo depth ((l, r) :: entered) := by
  induction depth with
  | zero => exact fun _ _ => trivial
  | succ depth ih =>
    have hbelow : A.EquatesUpTo depth entered := fun p hp => (hentered p hp).of_succ
    have hequates := (Forest.equatesUpTo_append.1 (hargs depth (ih hbelow))).1
    refine Forest.equatesUpTo_cons.2 ⟨?_, hentered⟩
    exact (Forest.agreeUpTo_succ_iff_args hl hr hplain hplain' hnode).2 hequates

/-- Going on with the arguments keeps what the end says: what is remembered is no condition more,
however far down. -/
theorem solvesTrees_of_descend {verdict : Verdict} {remember : Bool} {functor : String}
    {as bs : List Term} {m n : Nat} (h : s.Rational) (hl : l.term.isPlain) (hr : r.term.isPlain)
    (hleft : (s.deref l).term = .compound functor as m)
    (hright : (s.deref r).term = .compound functor bs n) (hlength : as.length = bs.length)
    (hverdict : verdict.SolvesTrees s
      (if remember then (s.deref l, s.deref r) :: entered else entered)
      ((s.deref l).args.zip (s.deref r).args ++ pending)) :
    verdict.SolvesTrees s entered ((l, r) :: pending) := by
  have hplain := h.isPlain_deref hl
  have hplain' := h.isPlain_deref hr
  have hslot : (s.deref l).slot? = none := by rw [Occurrence.slot?, hleft]; rfl
  have hslot' : (s.deref r).slot? = none := by rw [Occurrence.slot?, hright]; rfl
  have hnode : (s.deref l).term.sameNode (s.deref r).term := by
    simp [hleft, hright, Term.sameNode, hlength]
  refine solvesTrees_of_step hverdict rfl (fun A hfree hs hequates => ⟨hs, ?_⟩)
    fun A hfree hs => ⟨hs, fun hrest depth hentered => ?_⟩
  · obtain ⟨hpair, hpending⟩ := Forest.equates_cons.1 hequates
    rw [h.agree_iff_deref hfree hs hl hr,
      Forest.agree_iff_args hslot hslot' hplain hplain' hnode] at hpair
    exact Forest.equates_append.2 ⟨hpair, hpending⟩
  · have hremembered : A.EquatesUpTo depth
        (if remember then (s.deref l, s.deref r) :: entered else entered) := by
      cases remember with
      | false => exact hentered
      | true => exact equatesUpTo_cons_of_args hslot hslot' hplain hplain' hnode hrest hentered
    obtain ⟨hpair, hpending⟩ := Forest.equatesUpTo_append.1 (hrest depth hremembered)
    refine Forest.equatesUpTo_cons.2 ⟨?_, hpending⟩
    rw [h.agreeUpTo_iff_deref hfree hs hl hr]
    refine Tree.AgreeUpTo.of_succ ?_
    exact (Forest.agreeUpTo_succ_iff_args hslot hslot' hplain hplain' hnode).2 hpair

/-- When nothing is pending, nothing is said. -/
theorem solvesTrees_nil (h : s.Rational) : Verdict.SolvesTrees s entered [] (.unified s) := by
  refine ⟨h, rfl, fun A _ => ⟨fun hall => hall.1, fun hs => ⟨hs, fun _ _ => ?_⟩⟩⟩
  simp [Forest.EquatesUpTo]

/-- The end of an unchecked unification says of trees what the pending pairs said. -/
theorem solvesTrees_unifyPairs (h : s.Rational) (hpending : PlainPairs pending) (steps : Nat) :
    (s.unifyPairs layout false steps entered pending).SolvesTrees s entered pending := by
  induction steps generalizing s entered pending with
  | zero =>
    cases pending with
    | nil =>
      rw [unifyPairs]
      exact solvesTrees_nil h
    | cons => trivial
  | succ steps ih =>
    cases pending with
    | nil =>
      rw [unifyPairs]
      exact solvesTrees_nil h
    | cons pair pending =>
      obtain ⟨l, r⟩ := pair
      obtain ⟨⟨hl, hr⟩, hpending⟩ := List.forall_mem_cons.1 hpending
      have htreats := s.treats_pairStep layout false entered l r
      rw [unifyPairs]
      cases hstep : s.pairStep layout false entered l r with
      | skip =>
        rw [hstep] at htreats
        refine solvesTrees_of_step (ih h hpending) rfl
          (fun A _ hs hequates => ⟨hs, (Forest.equates_cons.1 hequates).2⟩)
          fun A hfree hs => ⟨hs, fun hrest depth hentered => ?_⟩
        have hpair := htreats.agreeUpTo_of_skip h hl hr hfree hs hentered
        exact Forest.equatesUpTo_cons.2 ⟨hpair, hrest depth hentered⟩
      | clash =>
        rw [hstep] at htreats
        rintro A hfree ⟨hs, hequates⟩
        exact htreats.not_agree_of_clash h hl hr hfree hs (Forest.equates_cons.1 hequates).1
      | bind v value =>
        rw [hstep] at htreats
        obtain ⟨slot, _, _, hbind, hrational⟩ := htreats.rational_bind h hl hr
        rw [← hbind] at hrational
        have hiff : ∀ A : Forest, A.NaNFree → _ := fun A hfree =>
          htreats.forest_satisfies_bind_iff (A := A) h hl hr hfree
        refine solvesTrees_of_step (ih hrational hpending) (by rw [hbind]; rfl)
          (fun A hfree hs hequates => ?_) fun A hfree hs' => ?_
        · obtain ⟨hpair, hrest⟩ := Forest.equates_cons.1 hequates
          exact ⟨(hiff A hfree).2 ⟨hs, hpair⟩, hrest⟩
        · obtain ⟨hs, hpair⟩ := (hiff A hfree).1 hs'
          refine ⟨hs, fun hrest depth hentered => ?_⟩
          exact Forest.equatesUpTo_cons.2 ⟨hpair depth, hrest depth hentered⟩
      | descend left right remember =>
        rw [hstep] at htreats
        cases htreats with
        | descend hleft hright hlength _ =>
          have hargs := List.forall_mem_append.2
            ⟨plainPairs_args (h.isPlain_deref hl) (h.isPlain_deref hr), hpending⟩
          exact solvesTrees_of_descend h hl hr hleft hright hlength (ih h hargs)

end Substitution

end ClauseResolution
