import ClauseResolution.Proofs.Unification.Termination

/-!
# Checked unification finds a most general unifier

With the occurs check each step of a unification keeps the assignments that satisfy the
substitution and equate all pending pairs: pairs are dropped only when they are equal
anyway, refused only when nothing makes them equal, and a binding says what its pair
said.
-/

namespace ClauseResolution

/-- The assignment makes the terms of every pair the same. -/
def Assignment.Equates (θ : Assignment) (pairs : List (Occurrence × Occurrence)) : Prop :=
  ∀ p ∈ pairs, (p.1.term.assign θ).same (p.2.term.assign θ)

/-- All variables of the pairs are named and have slots, and no number is not a number. -/
def PlainPairs (pairs : List (Occurrence × Occurrence)) : Prop :=
  ∀ p ∈ pairs, p.1.term.isPlain ∧ p.2.term.isPlain

section Pairs

variable {θ : Assignment} {a b : Occurrence} {pairs more : List (Occurrence × Occurrence)}

/-- The terms of two lists of pairs are made the same by what makes those of each the same. -/
theorem Assignment.equates_append :
    θ.Equates (pairs ++ more) ↔ θ.Equates pairs ∧ θ.Equates more := List.forall_mem_append

/-- The terms of some pairs are made the same by what does so for the first and for the others. -/
theorem Assignment.equates_cons : θ.Equates ((a, b) :: pairs) ↔
    (a.term.assign θ).same (b.term.assign θ) ∧ θ.Equates pairs := List.forall_mem_cons

/-- An assignment does not change the node of a term that is no variable. -/
theorem Occurrence.sameNode_assign (ha : a.isVar = false) (hb : b.isVar = false) :
    (a.term.assign θ).sameNode (b.term.assign θ) = a.term.sameNode b.term := by
  obtain ⟨_, _, s⟩ := a
  obtain ⟨_, _, t⟩ := b
  cases s with
  | var v => simp [isVar] at ha
  | atom | number | compound =>
    cases t with
    | var w => simp [isVar] at hb
    | atom | number | compound => simp [Term.sameNode]

/-- Pairs of two lists are equated exactly when the lists become the same, position by
position. -/
theorem Assignment.equates_zip_iff {as bs : List Occurrence} (hlength : as.length = bs.length) :
    θ.Equates (as.zip bs) ↔ List.Forall₂ (fun a b => (a.same b : Prop))
      (as.map fun a => a.term.assign θ) (bs.map fun b => b.term.assign θ) := by
  rw [List.forall₂_map_left_iff, List.forall₂_map_right_iff, List.forall₂_iff_zip]
  exact ⟨fun h => ⟨hlength, fun {a b} hmem => h (a, b) hmem⟩, fun h p hp => h.2 hp⟩

/-- Compound terms of one functor and arity are made the same by what equates their
arguments. -/
theorem Assignment.equates_args_iff {functor : String} {as bs : List Term} {m n : Nat}
    (ha : a.term = .compound functor as m) (hb : b.term = .compound functor bs n)
    (hlength : as.length = bs.length) :
    θ.Equates (a.args.zip b.args) ↔ (a.term.assign θ).same (b.term.assign θ) := by
  have hargs : a.args.length = b.args.length := by
    rw [Occurrence.length_args, Occurrence.length_args, ha, hb]
    exact hlength
  rw [equates_zip_iff hargs, Occurrence.map_assign_args, Occurrence.map_assign_args, ha, hb,
    Term.assign_compound, Term.assign_compound, Term.same_compound]
  exact (and_iff_right rfl).symm

/-- The arguments of plain terms are plain. -/
theorem plainPairs_args (ha : a.term.isPlain) (hb : b.term.isPlain) :
    PlainPairs (a.args.zip b.args) :=
  Occurrence.forall_zip_args (motive := fun t => t.isPlain) Term.isPlain_of_mem_args ha hb

end Pairs

namespace Substitution

variable {s : Substitution} {θ : Assignment} {layout : Layout} {l r : Occurrence}
  {entered pending : List (Occurrence × Occurrence)}

/-- Two occurrences become the same exactly when what they stand for does. -/
theorem Regular.same_iff_same_deref (h : s.Regular) (hl : l.term.isPlain) (hr : r.term.isPlain)
    (hθ : θ.NaNFree) (hs : θ.Satisfies s) : (l.term.assign θ).same (r.term.assign θ) ↔
      ((s.deref l).term.assign θ).same ((s.deref r).term.assign θ) := by
  have hleft := h.same_deref hθ hs hl
  have hright := h.same_deref hθ hs hr
  constructor
  · exact fun hsame => Term.same_trans (Term.same_trans (Term.same_symm hleft) hsame) hright
  · exact fun hsame => Term.same_trans (Term.same_trans hleft hsame) (Term.same_symm hright)

/-- Following a plain occurrence to a variable gives a named one with a slot. -/
theorem Regular.deref_var (h : s.Regular) {o : Occurrence} (ho : o.term.isPlain) {v : Var}
    (hterm : (s.deref o).term = .var v) :
    (∃ slot, v.index = some slot) ∧ v.isAnonymous = false := by
  have hplain := h.isPlain_deref ho
  rwa [hterm, Term.isPlain_var] at hplain

/-- A pair that is dropped is equal anyway. -/
theorem Treats.same_of_skip (htreats : s.Treats layout true entered l r .skip) (h : s.Regular)
    (hl : l.term.isPlain) (hr : r.term.isPlain) (hθ : θ.NaNFree) (hs : θ.Satisfies s) :
    (l.term.assign θ).same (r.term.assign θ) := by
  cases htreats with
  | constant hconstant => exact Term.assign_same hθ (Term.same_of_sameConstant hconstant)
  | @anonymous v hside hv =>
    have hnamed : v.isAnonymous = false := by
      rcases hside with hside | hside
      · exact (h.deref_var hl hside).2
      · exact (h.deref_var hr hside).2
    rw [hv] at hnamed
    cases hnamed
  | shared hdrops =>
    rw [h.same_iff_same_deref hl hr hθ hs, ← Layout.term_eq_of_drops hdrops]
    exact Term.assign_same_self hθ (Term.isNaNFree_of_isPlain (h.isPlain_deref hl))
  | met hcheck => cases hcheck
  | leaf hnode hargs =>
    rw [h.same_iff_same_deref hl hr hθ hs]
    exact Term.assign_same hθ ((Term.same_iff_sameNode hargs).2 hnode)

/-- Nothing makes a pair equal that is refused. -/
theorem Treats.not_same_of_clash (htreats : s.Treats layout true entered l r .clash) (h : s.Regular)
    (hl : l.term.isPlain) (hr : r.term.isPlain) (hθ : θ.NaNFree) (hs : θ.Satisfies s) :
    ¬ (l.term.assign θ).same (r.term.assign θ) := by
  rw [h.same_iff_same_deref hl hr hθ hs]
  cases htreats with
  | @cyclic a b v hside ha hb hv hcheck hoccurs =>
    obtain ⟨slot, hslot, _, hreach⟩ := (Store.occurs_iff _ _ v b.term).1 hoccurs
    rw [substitution_store] at hreach
    have hlt := extent_assign_lt_of_reaches hs hreach (Occurrence.slot?_of_isVar_eq_false hb) hslot
    rw [← ha] at hlt
    intro hsame
    have hextent := Term.extent_eq_of_same hsame
    rcases hside with ⟨rfl, rfl⟩ | ⟨rfl, rfl⟩ <;> omega
  | differ hl hr hnode =>
    intro hsame
    have hnode' := (Term.same_iff.1 hsame).1
    rw [Occurrence.sameNode_assign hl hr, hnode] at hnode'
    cases hnode'

/-- A binding is one of a free slot to a plain term from which it is not reached. -/
theorem Treats.bind_slot {v : Var} {value : Occurrence}
    (htreats : s.Treats layout true entered l r (.bind v value)) (h : s.Regular)
    (hl : l.term.isPlain) (hr : r.term.isPlain) :
    ∃ slot, v.index = some slot ∧ s.valueAt slot = none ∧ ¬ s.Reaches value.term slot ∧
      value.term.isPlain := by
  have hfree := (htreats.bind_free h.acyclic.settles).2
  have hreach := fun slot (hslot : v.index = some slot) =>
    htreats.not_reaches h.acyclic.settles hslot
  rcases htreats.bind_sides with ⟨hside, rfl⟩ | ⟨hside, rfl⟩
  · obtain ⟨⟨i, hi⟩, _⟩ := h.deref_var hl hside
    exact ⟨i, hi, hfree i hi, hreach i hi, h.isPlain_deref hr⟩
  · obtain ⟨⟨i, hi⟩, _⟩ := h.deref_var hr hside
    exact ⟨i, hi, hfree i hi, hreach i hi, h.isPlain_deref hl⟩

/-- A binding keeps a substitution regular. -/
theorem Treats.regular_bind {v : Var} {value : Occurrence}
    (htreats : s.Treats layout true entered l r (.bind v value)) (h : s.Regular)
    (hl : l.term.isPlain) (hr : r.term.isPlain) : (s.bind v value).Regular := by
  obtain ⟨slot, hslot, hfree, hreach, hvalue⟩ := htreats.bind_slot h hl hr
  rw [bind, hslot]
  exact h.extend hfree hreach hvalue

/-- A binding says what its pair said. -/
theorem Treats.satisfies_bind_iff {v : Var} {value : Occurrence}
    (htreats : s.Treats layout true entered l r (.bind v value)) (h : s.Regular)
    (hl : l.term.isPlain) (hr : r.term.isPlain) (hθ : θ.NaNFree) :
    θ.Satisfies (s.bind v value) ↔
      θ.Satisfies s ∧ (l.term.assign θ).same (r.term.assign θ) := by
  obtain ⟨slot, hslot, _, _, hvalue⟩ := htreats.bind_slot h hl hr
  have hbind : s.bind v value = s.extend slot value := by rw [bind, hslot]
  have hvar : (∀ w : Var, w.index = some slot →
      ((Term.var w).assign θ).same (value.term.assign θ)) ↔
        ((Term.var v).assign θ).same (value.term.assign θ) := by
    refine ⟨fun hall => hall v hslot, fun hsame w hw => ?_⟩
    exact Term.same_trans (Term.assign_var_same hθ hw hslot) hsame
  rw [hbind, satisfies_extend_iff, hvar, and_comm]
  refine and_congr_right fun hs => ?_
  rw [h.same_iff_same_deref hl hr hθ hs]
  rcases htreats.bind_sides with ⟨hside, rfl⟩ | ⟨hside, rfl⟩
  · rw [hside]
  · rw [hside, Term.same_comm]

end Substitution

/-- What the end of a unification says: of the assignments that satisfied the substitution
exactly those that equate the pending pairs satisfy the result, and none does so after a
clash. -/
def Verdict.Solves (s : Substitution) (pending : List (Occurrence × Occurrence)) :
    Verdict → Prop
  | .unified s' => s'.Regular ∧ s'.top = s.top ∧ (∃ newer, s'.bindings = newer ++ s.bindings) ∧
      ∀ θ : Assignment, θ.NaNFree → (θ.Satisfies s' ↔ θ.Satisfies s ∧ θ.Equates pending)
  | .clash => ∀ θ : Assignment, θ.NaNFree → ¬ (θ.Satisfies s ∧ θ.Equates pending)
  | .unfinished => True

namespace Substitution

variable {s s' : Substitution} {layout : Layout}
  {entered pending pending' : List (Occurrence × Occurrence)}

/-- A step that says of assignments what was said before does not change the end. -/
theorem solves_of_step {verdict : Verdict} (h : verdict.Solves s' pending') (htop : s'.top = s.top)
    (hnewer : ∃ newer, s'.bindings = newer ++ s.bindings)
    (hθ : ∀ θ : Assignment, θ.NaNFree → (θ.Satisfies s' ∧ θ.Equates pending' ↔
      θ.Satisfies s ∧ θ.Equates pending)) : verdict.Solves s pending := by
  cases verdict with
  | unified last =>
    obtain ⟨hregular, htop', ⟨newest, hnewest⟩, hiff⟩ := h
    obtain ⟨newer, hnewer⟩ := hnewer
    refine ⟨hregular, htop'.trans htop, ⟨newest ++ newer, ?_⟩, fun θ hfree => ?_⟩
    · rw [hnewest, hnewer, List.append_assoc]
    · rw [hiff θ hfree, hθ θ hfree]
  | clash => exact fun θ hfree hall => h θ hfree ((hθ θ hfree).2 hall)
  | unfinished => trivial

/-- The end of a checked unification says what the pending pairs said. -/
theorem solves_unifyPairs (h : s.Regular) (hpending : PlainPairs pending) (steps : Nat) :
    (s.unifyPairs layout true steps entered pending).Solves s pending := by
  induction steps generalizing s entered pending with
  | zero =>
    cases pending with
    | nil =>
      rw [unifyPairs]
      exact ⟨h, rfl, ⟨[], rfl⟩, fun θ _ => by simp [Assignment.Equates]⟩
    | cons => trivial
  | succ steps ih =>
    cases pending with
    | nil =>
      rw [unifyPairs]
      exact ⟨h, rfl, ⟨[], rfl⟩, fun θ _ => by simp [Assignment.Equates]⟩
    | cons pair pending =>
      obtain ⟨l, r⟩ := pair
      obtain ⟨⟨hl, hr⟩, hpending⟩ := List.forall_mem_cons.1 hpending
      have htreats := s.treats_pairStep layout true entered l r
      rw [unifyPairs]
      cases hstep : s.pairStep layout true entered l r with
      | skip =>
        rw [hstep] at htreats
        refine solves_of_step (ih h hpending) rfl ⟨[], rfl⟩ fun θ hfree => ?_
        rw [Assignment.equates_cons]
        refine and_congr_right fun hs => (and_iff_right ?_).symm
        exact htreats.same_of_skip h hl hr hfree hs
      | clash =>
        rw [hstep] at htreats
        rintro θ hfree ⟨hs, hequates⟩
        exact htreats.not_same_of_clash h hl hr hfree hs (Assignment.equates_cons.1 hequates).1
      | bind v value =>
        rw [hstep] at htreats
        obtain ⟨slot, hslot, _⟩ := htreats.bind_slot h hl hr
        have hbind : s.bind v value = s.extend slot value := by rw [bind, hslot]
        refine solves_of_step (ih (htreats.regular_bind h hl hr) hpending) (by rw [hbind]; rfl)
          ⟨[(slot, value)], by rw [hbind]; rfl⟩ fun θ hfree => ?_
        rw [Assignment.equates_cons, htreats.satisfies_bind_iff h hl hr hfree, and_assoc]
      | descend left right remember =>
        rw [hstep] at htreats
        cases htreats with
        | descend hleft hright hlength _ =>
          have hargs := plainPairs_args (h.isPlain_deref hl) (h.isPlain_deref hr)
          refine solves_of_step (ih h (List.forall_mem_append.2 ⟨hargs, hpending⟩)) rfl ⟨[], rfl⟩
            fun θ hfree => and_congr_right fun hs => ?_
          rw [Assignment.equates_append, Assignment.equates_cons,
            Assignment.equates_args_iff hleft hright hlength, h.same_iff_same_deref hl hr hfree hs]

end Substitution

namespace Store

variable {σ : Store} {c : Context} {left right : Occurrence}

/-- Checked unification finds a most general unifier. In a context with a regular
substitution it ends when enough steps are granted. It clashes exactly when no assignment
satisfies the substitution and makes the two terms the same. Otherwise the context it
returns extends the old one, which keeps its meaning; the substitution is regular again,
it makes the two terms the same throughout, and it is satisfied by exactly the assignments
that satisfy the old one and make the terms the same. -/
theorem unify_mostGeneral (layout : Layout) (hc : σ.Holds c) (h : (σ.substitution c).Regular)
    (hleft : left.term.isPlain) (hright : right.term.isPlain) :
    ∃ enough, ∀ steps ≥ enough,
      ((∃ τ, unify layout true steps σ c left right = .clash τ) ↔
        ¬ ∃ θ : Assignment, θ.NaNFree ∧ θ.Satisfies (σ.substitution c) ∧
          (left.term.assign θ).same (right.term.assign θ)) ∧
      ((∃ τ, unify layout true steps σ c left right = .clash τ) ∨
        ∃ τ d, unify layout true steps σ c left right = .unified τ d ∧
          τ.Holds d ∧ d.top = c.top ∧ τ.substitution c = σ.substitution c ∧
          (∃ newer, (τ.substitution d).bindings = newer ++ (σ.substitution c).bindings) ∧
          (τ.substitution d).Regular ∧
          (∃ l r, τ.reify d left.term = some l ∧ τ.reify d right.term = some r ∧ l.same r) ∧
          ∀ θ : Assignment, θ.NaNFree → (θ.Satisfies (τ.substitution d) ↔
            θ.Satisfies (σ.substitution c) ∧ (left.term.assign θ).same (right.term.assign θ))) := by
  have hplain : PlainPairs [(left, right)] := by simp [PlainPairs, hleft, hright]
  have hequates : ∀ θ : Assignment, θ.Equates [(left, right)] ↔
      (left.term.assign θ).same (right.term.assign θ) := fun θ => by simp [Assignment.Equates]
  obtain ⟨slots, hslots⟩ := (σ.substitution c).exists_confined [(left, right)]
  obtain ⟨enough, hend⟩ : ∃ steps,
      (σ.substitution c).unifyPairs layout true steps [] [(left, right)] ≠ .unfinished :=
    Substitution.exists_unifyPairs_ne_unfinished h.acyclic hslots
  refine ⟨enough, fun steps hsteps => ?_⟩
  rw [← Substitution.unifyPairs_mono hsteps hend] at hend
  have hsolves : ((σ.substitution c).unifyPairs layout true steps [] [(left, right)]).Solves _ _ :=
    Substitution.solves_unifyPairs h hplain steps
  have hrealizes := unifyPairs_realizes hc h.acyclic.settles layout true steps [] [(left, right)]
  rw [unify, unifyAll]
  cases hverdict : (σ.substitution c).unifyPairs layout true steps [] [(left, right)] with
  | unfinished => exact absurd hverdict hend
  | clash =>
    rw [hverdict] at hsolves hrealizes
    obtain ⟨τ, hclash⟩ : ∃ τ, unifyPairs layout true steps σ c [] [(left, right)] = .clash τ := by
      cases hunify : unifyPairs layout true steps σ c [] [(left, right)] with
      | clash τ => exact ⟨τ, rfl⟩
      | unified | unfinished => simp [hunify, Unified.Realizes] at hrealizes
    refine ⟨iff_of_true ⟨τ, hclash⟩ ?_, Or.inl ⟨τ, hclash⟩⟩
    rintro ⟨θ, hfree, hs, hsame⟩
    exact hsolves θ hfree ⟨hs, (hequates θ).2 hsame⟩
  | unified s =>
    rw [hverdict] at hsolves hrealizes
    obtain ⟨τ, d, hunified⟩ : ∃ τ d, unifyPairs layout true steps σ c [] [(left, right)] =
        .unified τ d := by
      cases hunify : unifyPairs layout true steps σ c [] [(left, right)] with
      | unified τ d => exact ⟨τ, d, rfl⟩
      | clash | unfinished => simp [hunify, Unified.Realizes] at hrealizes
    rw [hunified] at hrealizes
    obtain ⟨hgrows, hd, rfl, _⟩ := hrealizes
    obtain ⟨hregular, htop, hnewer, hiff⟩ := hsolves
    simp only [hequates] at hiff
    -- The solution of the result is an assignment that satisfies it.
    obtain ⟨hs, hsame⟩ := (hiff _ hregular.solution_NaNFree).1 hregular.solution_satisfies
    refine ⟨iff_of_false (by simp [hunified]) ?_, Or.inr ⟨τ, d, hunified, hd, htop, ?_, hnewer,
      hregular, ?_, hiff⟩⟩
    · exact fun hnone => hnone ⟨_, hregular.solution_NaNFree, hs, hsame⟩
    · exact (hgrows.agree.substitution_eq hc).symm
    · exact ⟨_, _, reify_eq_solution hregular.acyclic _, reify_eq_solution hregular.acyclic _,
        hsame⟩

/-- A substitution that binds one variable to a term with another one. -/
def nested : Substitution := ⟨[(0, .whole 0 (.apply "f" [.var ⟨"Y", some 1⟩]))], 3⟩

/-- The nested substitution is regular. -/
theorem regular_nested : nested.Regular := by
  have hempty : (⟨[], 3⟩ : Substitution).Regular := Substitution.regular_of_bindings_eq_nil rfl
  change (Substitution.extend ⟨[], 3⟩ 0 (.whole 0 (.apply "f" [.var ⟨"Y", some 1⟩]))).Regular
  refine hempty.extend rfl ?_ (by decide)
  rintro ⟨i, hi, hpath⟩
  obtain rfl : 1 = i := by simpa [Occurrence.whole, Term.apply] using hi
  rcases hpath.cases_head with heq | ⟨j, ⟨value, hvalue, _⟩, _⟩
  · cases heq
  · cases hvalue

/-- With `X` bound to `f(Y)`, the terms `p(X, Y)` and `p(Z, a)` are unified. -/
theorem unify_mostGeneral_nested :
    nested.store.Holds nested.context ∧ (nested.store.substitution nested.context).Regular ∧
      ∃ enough, ∀ steps ≥ enough, ∃ τ d,
        unify .byOccurrence true steps nested.store nested.context
          (.whole 1 (.apply "p" [.var ⟨"X", some 0⟩, .var ⟨"Y", some 1⟩]))
          (.whole 2 (.apply "p" [.var ⟨"Z", some 2⟩, .atom "a"])) = .unified τ d ∧
        (τ.substitution d).Regular := by
  have hholds : nested.store.Holds nested.context := le_of_eq nested.stamp_context
  have hregular : (nested.store.substitution nested.context).Regular := by
    rw [Substitution.substitution_store]
    exact regular_nested
  refine ⟨hholds, hregular, ?_⟩
  obtain ⟨enough, hend⟩ := @unify_mostGeneral nested.store nested.context
    (.whole 1 (.apply "p" [.var ⟨"X", some 0⟩, .var ⟨"Y", some 1⟩]))
    (.whole 2 (.apply "p" [.var ⟨"Z", some 2⟩, .atom "a"])) .byOccurrence hholds hregular
    (by decide) (by decide)
  refine ⟨enough, fun steps hsteps => ?_⟩
  obtain ⟨hclash, hcases⟩ := hend steps hsteps
  rcases hcases with hclashed | ⟨τ, d, hunified, _, _, _, _, hresult, _⟩
  · -- The terms are made the same by `X = Z = f(a)` and `Y = a`.
    let solver : Assignment
      | 1 => some (.atom "a")
      | _ => some (.apply "f" [.atom "a"])
    refine absurd ⟨solver, ?_, ?_, ?_⟩ (hclash.1 hclashed)
    · intro slot t ht
      have hvalue : t = .atom "a" ∨ t = .apply "f" [.atom "a"] := by
        rcases slot with _ | _ | slot <;> cases ht <;> simp
      rcases hvalue with rfl | rfl <;> decide
    · rw [Substitution.substitution_store]
      intro slot value hmem v hv
      obtain ⟨rfl, rfl⟩ : slot = 0 ∧ value = .whole 0 (.apply "f" [.var ⟨"Y", some 1⟩]) := by
        simpa [nested] using hmem
      rw [Term.assign_var_of_index hv]
      change (Term.apply "f" [.atom "a"]).same (.apply "f" [.atom "a"])
      exact Term.same_self (by decide)
    · decide +kernel
  · exact ⟨τ, d, hunified, hresult⟩

end Store

end ClauseResolution
