import ClauseResolution.Clause.Renaming
import ClauseResolution.Proofs.Unification.Trees
import Mathlib.Data.Finset.Prod
import Mathlib.Data.Finset.Union

/-!
# Unchecked unification ends

Whatever a unification looks at is written in the two terms or in a value that is bound,
so there are only finitely many pairs it can enter. A binding leaves fewer free slots, an
entered pair leaves fewer to be entered, and between these the terms written down get
smaller. So unification without the occurs check ends in every context that it can be
used in, and is exact over finite and infinite trees.
-/

namespace ClauseResolution

/-- The set has all arguments of the occurrences in it. -/
def HoldsArgs (texts : Finset Occurrence) : Prop := ∀ o ∈ texts, ∀ arg ∈ o.args, arg ∈ texts

/-- Finitely many occurrences lie in one set when each lies in a set that has all arguments. -/
theorem exists_holdsArgs_of_forall (os : List Occurrence)
    (h : ∀ o ∈ os, ∃ texts, o ∈ texts ∧ HoldsArgs texts) :
    ∃ texts, (∀ o ∈ os, o ∈ texts) ∧ HoldsArgs texts := by
  induction os with
  | nil => exact ⟨∅, by simp, by simp [HoldsArgs]⟩
  | cons o os ih =>
    obtain ⟨⟨first, ho, hfirst⟩, hrest⟩ := List.forall_mem_cons.1 h
    obtain ⟨rest, hos, hrest⟩ := ih hrest
    refine ⟨first ∪ rest, List.forall_mem_cons.2 ⟨?_, fun a ha => ?_⟩, fun a ha arg harg => ?_⟩
    · exact Finset.mem_union_left _ ho
    · exact Finset.mem_union_right _ (hos a ha)
    · rcases Finset.mem_union.1 ha with ha | ha
      · exact Finset.mem_union_left _ (hfirst a ha arg harg)
      · exact Finset.mem_union_right _ (hrest a ha arg harg)

/-- Every occurrence lies in a finite set that has all arguments. -/
theorem Occurrence.exists_holdsArgs (o : Occurrence) : ∃ texts, o ∈ texts ∧ HoldsArgs texts := by
  induction hterm : o.term generalizing o with
  | atom | number | var =>
    have hargs : o.args = [] := by
      rw [← List.length_eq_zero_iff, Occurrence.length_args, hterm]
      rfl
    exact ⟨{o}, by simp, by simp [HoldsArgs, hargs]⟩
  | compound f as m ih =>
    obtain ⟨texts, hargs, hholds⟩ : ∃ texts, (∀ arg ∈ o.args, arg ∈ texts) ∧ HoldsArgs texts := by
      refine exists_holdsArgs_of_forall _ fun arg harg => ih arg.term ?_ arg rfl
      have hmem := Occurrence.term_mem_args harg
      rwa [hterm] at hmem
    refine ⟨insert o texts, Finset.mem_insert_self _ _, fun a ha arg harg => ?_⟩
    refine Finset.mem_insert_of_mem ?_
    rcases Finset.mem_insert.1 ha with rfl | ha
    · exact hargs arg harg
    · exact hholds a ha arg harg

namespace Substitution

variable {s : Substitution} {layout : Layout} {l r : Occurrence}
  {entered pending : List (Occurrence × Occurrence)} {texts : Finset Occurrence}

/-- All values and all pending pairs lie in a set that has all arguments. -/
structure Within (s : Substitution) (texts : Finset Occurrence)
    (pending : List (Occurrence × Occurrence)) : Prop where
  /-- The set has all arguments. -/
  args : HoldsArgs texts
  /-- The values are in the set. -/
  values : ∀ slot value, (slot, value) ∈ s.bindings → value ∈ texts
  /-- The pairs are in the set. -/
  pairs : ∀ p ∈ pending, p.1 ∈ texts ∧ p.2 ∈ texts

/-- The values of a substitution and some pairs lie in a finite set that has all arguments. -/
theorem exists_within (s : Substitution) (pending : List (Occurrence × Occurrence)) :
    ∃ texts, s.Within texts pending := by
  obtain ⟨texts, hmem, hargs⟩ := exists_holdsArgs_of_forall
    (s.bindings.map Prod.snd ++ (pending.map Prod.fst ++ pending.map Prod.snd))
    fun o _ => o.exists_holdsArgs
  simp only [List.forall_mem_append, List.forall_mem_map] at hmem
  obtain ⟨hvalues, hfst, hsnd⟩ := hmem
  exact ⟨texts, hargs, fun slot value h => hvalues (slot, value) h,
    fun p hp => ⟨hfst p hp, hsnd p hp⟩⟩

/-- The slots in the occurrences of a set. -/
def slotsOf (texts : Finset Occurrence) : Finset Nat :=
  texts.biUnion fun o => o.term.slots.toFinset

/-- The pairs in a set that are not entered yet. -/
def unmet (texts : Finset Occurrence) (entered : List (Occurrence × Occurrence)) :
    Finset (Occurrence × Occurrence) := (texts ×ˢ texts) \ entered.toFinset

/-- The extent of the left sides as they are written. -/
def written (pending : List (Occurrence × Occurrence)) : Nat :=
  Term.extents (pending.map fun p => p.1.term)

namespace Within

/-- What is followed from an occurrence in the set stays there. -/
theorem deref (h : s.Within texts pending) {o : Occurrence} (ho : o ∈ texts) :
    s.deref o ∈ texts :=
  deref_keeps (motive := fun o => o ∈ texts) (fun _ => h.values _ _) ho

/-- The pairs after the first one. -/
theorem tail (h : s.Within texts ((l, r) :: pending)) : s.Within texts pending :=
  ⟨h.args, h.values, fun p hp => h.pairs p (List.mem_cons_of_mem _ hp)⟩

/-- What the first pair stands for. -/
theorem deref_pair (h : s.Within texts ((l, r) :: pending)) :
    s.deref l ∈ texts ∧ s.deref r ∈ texts :=
  (h.pairs (l, r) List.mem_cons_self).imp h.deref h.deref

/-- The arguments of what the first pair stands for, before the other pairs. -/
theorem descend (h : s.Within texts ((l, r) :: pending)) :
    s.Within texts ((s.deref l).args.zip (s.deref r).args ++ pending) := by
  refine ⟨h.args, h.values, List.forall_mem_append.2 ⟨fun p hp => ?_, h.tail.pairs⟩⟩
  obtain ⟨hfst, hsnd⟩ := List.of_mem_zip hp
  exact ⟨h.args _ h.deref_pair.1 _ hfst, h.args _ h.deref_pair.2 _ hsnd⟩

/-- A binding that the first pair calls for is one of a slot in the set, and to an
occurrence in the set. -/
theorem bind {occursCheck : Bool} {v : Var} {value : Occurrence} {slot : Nat}
    (h : s.Within texts ((l, r) :: pending))
    (htreats : s.Treats layout occursCheck entered l r (.bind v value))
    (hslot : v.index = some slot) :
    slot ∈ slotsOf texts ∧ (s.extend slot value).Within texts pending := by
  obtain ⟨hl, hr⟩ := h.deref_pair
  have hmem : slot ∈ slotsOf texts ∧ value ∈ texts := by
    have hvar : slot ∈ (Term.var v).slots := Term.mem_slots_var.2 hslot
    rcases htreats.bind_sides with ⟨hside, rfl⟩ | ⟨hside, rfl⟩
    · exact ⟨Finset.mem_biUnion.2 ⟨_, hl, List.mem_toFinset.2 (hside ▸ hvar)⟩, hr⟩
    · exact ⟨Finset.mem_biUnion.2 ⟨_, hr, List.mem_toFinset.2 (hside ▸ hvar)⟩, hl⟩
  refine ⟨hmem.1, h.args, fun i other hbinding => ?_, h.tail.pairs⟩
  rcases List.mem_cons.1 hbinding with heq | hbinding
  · cases heq
    exact hmem.2
  · exact h.values i other hbinding

end Within

/-- A pair is remembered only when it was not entered before. -/
theorem not_mem_of_remember {left right : Occurrence}
    (hstep : s.pairStep layout false entered l r = .descend left right true) :
    (left, right) ∉ entered := by
  have hcompound : left.isCompound = true ∧ right.isCompound = true := by
    have htreats := s.treats_pairStep layout false entered l r
    rw [hstep] at htreats
    cases htreats with
    | descend hleft hright => simp [Occurrence.isCompound, hleft, hright, Term.toCompound?]
  have hmet : ¬ layout.met entered left right = true := by
    unfold pairStep at hstep
    dsimp only at hstep
    repeat' split at hstep
    all_goals try cases hstep
    assumption
  exact fun hmem => hmet (Layout.met_of_mem hmem hcompound.1 hcompound.2)

/-- Entering a pair of the set leaves fewer to be entered. -/
theorem card_unmet_lt (hl : l ∈ texts) (hr : r ∈ texts) (hnew : (l, r) ∉ entered) :
    (unmet texts ((l, r) :: entered)).card < (unmet texts entered).card := by
  refine Finset.card_lt_card ⟨?_, fun hsub => ?_⟩
  · refine Finset.sdiff_subset_sdiff (Finset.Subset.refl _) ?_
    rw [List.toFinset_cons]
    exact Finset.subset_insert _ _
  · have hunmet : (l, r) ∈ unmet texts entered :=
      Finset.mem_sdiff.2 ⟨Finset.mk_mem_product hl hr, by rwa [List.mem_toFinset]⟩
    exact (Finset.mem_sdiff.1 (hsub hunmet)).2 (List.mem_toFinset.2 List.mem_cons_self)

/-- A pair that is left out makes the pending pairs shorter. -/
theorem written_lt_cons (l r : Occurrence) : written pending < written ((l, r) :: pending) := by
  simp only [written, List.map_cons, Term.extents]
  omega

/-- The arguments are smaller than what has them, as they are written. -/
theorem written_args_lt (l r : Occurrence) (others : List Occurrence) :
    written (l.args.zip others ++ pending) < written ((l, r) :: pending) := by
  have hargs : written (l.args.zip others) ≤ Term.extents l.term.args :=
    l.extents_zip_args_le others
  have hnode := Term.extent_eq l.term
  simp only [written, List.map_append, Term.extents_append, List.map_cons, Term.extents] at hargs ⊢
  omega

/-- The bindings that pairs call for keep a substitution orderly. -/
theorem Treats.orderly_bind {occursCheck : Bool} {v : Var} {value : Occurrence} (h : s.Orderly)
    (htreats : s.Treats layout occursCheck entered l r (.bind v value)) :
    (s.bind v value).Orderly := by
  obtain ⟨hsettled, hfree⟩ := htreats.bind_free h.settles
  rw [bind]
  cases hindex : v.index with
  | none => exact h
  | some slot => exact h.extend (hfree slot hindex) hsettled (htreats.bind_named.2 slot hindex)

/-- An unchecked unification ends. -/
theorem Orderly.exists_unchecked_ne_unfinished {s : Substitution} (h : s.Orderly)
    (entered : List (Occurrence × Occurrence)) {pending : List (Occurrence × Occurrence)}
    {texts : Finset Occurrence} (hwithin : s.Within texts pending) :
    ∃ steps, s.unifyPairs layout false steps entered pending ≠ .unfinished := by
  match pending with
  | [] => exact ⟨0, by simp [unifyPairs]⟩
  | (l, r) :: pending =>
    have htreats := s.treats_pairStep layout false entered l r
    have hwritten : written pending < written ((l, r) :: pending) := written_lt_cons l r
    cases hstep : s.pairStep layout false entered l r with
    | skip =>
      obtain ⟨steps, hend⟩ := h.exists_unchecked_ne_unfinished entered hwithin.tail
      exact ⟨steps + 1, by simpa only [unifyPairs, hstep] using hend⟩
    | clash => exact ⟨1, by simp [unifyPairs, hstep]⟩
    | bind v value =>
      rw [hstep] at htreats
      cases hslot : v.index with
      | none =>
        have hsame : s.bind v value = s := by rw [bind, hslot]
        obtain ⟨steps, hend⟩ := h.exists_unchecked_ne_unfinished entered hwithin.tail
        exact ⟨steps + 1, by simpa only [unifyPairs, hstep, hsame] using hend⟩
      | some slot =>
        have hbind : s.bind v value = s.extend slot value := by rw [bind, hslot]
        obtain ⟨hmem, hbound⟩ := hwithin.bind htreats hslot
        have hfree := (htreats.bind_free h.settles).2 slot hslot
        have hlt : (s.extend slot value).freeCount (slotsOf texts) < s.freeCount (slotsOf texts) :=
          freeCount_extend_lt hmem hfree
        have horderly : (s.extend slot value).Orderly := hbind ▸ htreats.orderly_bind h
        obtain ⟨steps, hend⟩ := horderly.exists_unchecked_ne_unfinished entered hbound
        exact ⟨steps + 1, by simpa only [unifyPairs, hstep, hbind] using hend⟩
    | descend left right remember =>
      rw [hstep] at htreats
      cases htreats with
      | descend _ _ _ hremember =>
        cases remember with
        | true =>
          obtain ⟨hleft, hright⟩ := hwithin.deref_pair
          have hunmet := card_unmet_lt hleft hright (not_mem_of_remember hstep)
          obtain ⟨steps, hend⟩ := h.exists_unchecked_ne_unfinished
            ((s.deref l, s.deref r) :: entered) hwithin.descend
          exact ⟨steps + 1, by simpa [unifyPairs, hstep] using hend⟩
        | false =>
          -- Neither side is a variable, so the arguments are those that are written.
          have hvar : l.isVar = false := by
            have hneither : (l.isVar || r.isVar) = false := hremember.symm
            exact (Bool.or_eq_false_iff.1 hneither).1
          have hsame : s.deref l = l := deref_of_settled
            (by rw [Settled, follow, Occurrence.slot?_of_isVar_eq_false hvar, Option.bind_none])
          have hsmaller : written ((s.deref l).args.zip (s.deref r).args ++ pending) <
              written ((l, r) :: pending) := by
            rw [hsame]
            exact written_args_lt l r _
          obtain ⟨steps, hend⟩ := h.exists_unchecked_ne_unfinished entered hwithin.descend
          exact ⟨steps + 1, by simpa [unifyPairs, hstep] using hend⟩
termination_by (s.freeCount (slotsOf texts), (unmet texts entered).card, written pending)

/-- What a unification returns is orderly. -/
theorem Orderly.unifyPairs {occursCheck : Bool} {steps : Nat} {s' : Substitution} (h : s.Orderly)
    (hunify : s.unifyPairs layout occursCheck steps entered pending = .unified s') : s'.Orderly :=
  unifyPairs_keeps (fun h htreats => htreats.orderly_bind h) h hunify

end Substitution

namespace Store

variable {σ τ : Store} {c d : Context} {left right : Occurrence}

/-- The context is obtained from the empty one by allocating slots, renaming clauses and
unifying without the occurs check, wherever terms are stored at the time. Other contexts
may be extended in the meantime. -/
inductive Obtains : Store → Context → Prop
  /-- The empty context. -/
  | empty (σ : Store) : Obtains σ .empty
  /-- Slots are allocated. -/
  | allocate {σ : Store} {c : Context} (hc : Obtains σ c) (count : Nat) :
      Obtains σ (c.allocate count).1
  /-- A clause is renamed. -/
  | rename {σ : Store} {c : Context} (hc : Obtains σ c) (clause : Clause) :
      Obtains σ (clause.rename c).context
  /-- Two terms are unified. -/
  | unify {σ τ : Store} {c d : Context} (hc : Obtains σ c) (layout : Layout) (steps : Nat)
      (left right : Occurrence)
      (hunify : ClauseResolution.unify layout false steps σ c left right = .unified τ d) :
      Obtains τ d
  /-- Bindings of other contexts are added to the store. -/
  | grow {σ τ : Store} {c : Context} (hc : Obtains σ c) (hgrows : σ.Grows τ) : Obtains τ c

/-- The context is one of the store, and its substitution is orderly. -/
theorem Obtains.orderly (h : Obtains σ c) : σ.Holds c ∧ (σ.substitution c).Orderly := by
  induction h with
  | empty σ =>
    have hnil : (σ.substitution .empty).bindings = [] := by
      rw [substitution, Context.empty, chain]
    exact ⟨Nat.zero_le _, Substitution.settles_of_bindings_eq_nil hnil, by simp [hnil]⟩
  | allocate _ count ih =>
    obtain ⟨hholds, horderly⟩ := ih
    exact ⟨hholds, horderly.settles.withTop _, horderly.nodup⟩
  | rename _ clause ih =>
    obtain ⟨hholds, horderly⟩ := ih
    exact ⟨hholds, horderly.settles.withTop _, horderly.nodup⟩
  | @unify σ τ c d _ layout steps left right hunify ih =>
    obtain ⟨hholds, horderly⟩ := ih
    obtain ⟨hd, hunified⟩ := unifyPairs_of_unify hholds horderly.settles hunify
    exact ⟨hd, horderly.unifyPairs hunified⟩
  | grow _ hgrows ih =>
    obtain ⟨hholds, horderly⟩ := ih
    rw [hgrows.agree.substitution_eq hholds] at horderly
    exact ⟨hholds.of_grows hgrows, horderly⟩

/-- Unification without the occurs check is exact over finite and infinite trees. It ends
when enough steps are granted, also when the context is cyclic. It clashes exactly when no
trees satisfy the bindings and make the two terms equal. Otherwise the old context keeps
its meaning, and the trees that satisfy the bindings of the new one are those that satisfy
the old bindings and make the terms equal. -/
theorem unify_exact (layout : Layout) (hc : Obtains σ c)
    (hvalues : ∀ slot value, (slot, value) ∈ (σ.substitution c).bindings → value.term.isPlain)
    (hleft : left.term.isPlain) (hright : right.term.isPlain) :
    ∃ enough, ∀ steps ≥ enough,
      ((∃ τ, unify layout false steps σ c left right = .clash τ) ↔
        ¬ ∃ A : Forest, A.NaNFree ∧ A.Satisfies (σ.substitution c) ∧
          (left.term.image A).Agree (right.term.image A)) ∧
      ((∃ τ, unify layout false steps σ c left right = .clash τ) ∨
        ∃ τ d, unify layout false steps σ c left right = .unified τ d ∧
          Obtains τ d ∧ d.top = c.top ∧ τ.substitution c = σ.substitution c ∧
          (∀ slot value, (slot, value) ∈ (τ.substitution d).bindings → value.term.isPlain) ∧
          ∀ A : Forest, A.NaNFree → (A.Satisfies (τ.substitution d) ↔
            A.Satisfies (σ.substitution c) ∧ (left.term.image A).Agree (right.term.image A))) := by
  obtain ⟨hholds, horderly⟩ := hc.orderly
  have h : (σ.substitution c).Rational := ⟨horderly, hvalues⟩
  have hplain : PlainPairs [(left, right)] := by simp [PlainPairs, hleft, hright]
  have hequates : ∀ A : Forest, A.Equates [(left, right)] ↔
      (left.term.image A).Agree (right.term.image A) := fun A => by
    simp [Forest.Equates, Forest.EquatesUpTo, Tree.Agree]
  obtain ⟨texts, htexts⟩ := (σ.substitution c).exists_within [(left, right)]
  obtain ⟨enough, hend⟩ : ∃ steps,
      (σ.substitution c).unifyPairs layout false steps [] [(left, right)] ≠ .unfinished :=
    h.exists_unchecked_ne_unfinished [] htexts
  refine ⟨enough, fun steps hsteps => ?_⟩
  rw [← Substitution.unifyPairs_mono hsteps hend] at hend
  have hsolves :
      ((σ.substitution c).unifyPairs layout false steps [] [(left, right)]).SolvesTrees _ [] _ :=
    Substitution.solvesTrees_unifyPairs h hplain steps
  have hrealizes := unifyPairs_realizes hholds h.settles layout false steps [] [(left, right)]
  cases hverdict : (σ.substitution c).unifyPairs layout false steps [] [(left, right)] with
  | unfinished => exact absurd hverdict hend
  | clash =>
    rw [hverdict] at hsolves hrealizes
    obtain ⟨τ, hclash⟩ : ∃ τ, unify layout false steps σ c left right = .clash τ := by
      rw [unify, unifyAll]
      cases hunify : unifyPairs layout false steps σ c [] [(left, right)] with
      | clash τ => exact ⟨τ, rfl⟩
      | unified | unfinished => simp [hunify, Unified.Realizes] at hrealizes
    refine ⟨iff_of_true ⟨τ, hclash⟩ ?_, Or.inl ⟨τ, hclash⟩⟩
    rintro ⟨A, hfree, hs, hagree⟩
    exact hsolves A hfree ⟨hs, (hequates A).2 hagree⟩
  | unified s =>
    rw [hverdict] at hsolves hrealizes
    obtain ⟨τ, d, hunified⟩ : ∃ τ d, unify layout false steps σ c left right = .unified τ d := by
      rw [unify, unifyAll]
      cases hunify : unifyPairs layout false steps σ c [] [(left, right)] with
      | unified τ d => exact ⟨τ, d, rfl⟩
      | clash | unfinished => simp [hunify, Unified.Realizes] at hrealizes
    have hpairs : unifyPairs layout false steps σ c [] [(left, right)] = .unified τ d := hunified
    rw [hpairs] at hrealizes
    obtain ⟨hgrows, hd, rfl, _⟩ := hrealizes
    obtain ⟨hrational, htop, htrees⟩ := hsolves
    -- Nothing was entered at the start, so nothing is assumed of what was entered.
    have hiff : ∀ A : Forest, A.NaNFree → (A.Satisfies (τ.substitution d) ↔
        A.Satisfies (σ.substitution c) ∧
          (left.term.image A).Agree (right.term.image A)) := fun A hfree => by
      obtain ⟨hforth, hback⟩ := htrees A hfree
      rw [← hequates]
      refine ⟨fun hsatisfies => ?_, hforth⟩
      obtain ⟨hs, hdepth⟩ := hback hsatisfies
      exact ⟨hs, fun depth => hdepth depth (by simp [Forest.EquatesUpTo])⟩
    obtain ⟨hs, hagree⟩ := (hiff _ hrational.nanFree_forest).1 hrational.satisfies_forest
    refine ⟨iff_of_false (by simp [hunified]) ?_, Or.inr ⟨τ, d, hunified,
      hc.unify _ _ _ _ hunified, htop, (hgrows.agree.substitution_eq hholds).symm,
      hrational.plain, hiff⟩⟩
    exact fun hnone => hnone ⟨_, hrational.nanFree_forest, hs, hagree⟩

/-- With `X` bound to `f(X)` and `Y` to `f(Y)`, the variables `X` and `Y` are unified
without a new binding: all trees that satisfy the bindings agree at the two slots. -/
theorem unify_exact_cyclic :
    let σ : Store := ⟨#[⟨0, .whole 0 (.apply "f" [.var ⟨"X", some 0⟩]), 0⟩,
      ⟨1, .whole 0 (.apply "f" [.var ⟨"Y", some 1⟩]), 1⟩]⟩
    Obtains σ ⟨2, 2⟩ ∧
      ∀ A : Forest, A.NaNFree → A.Satisfies (σ.substitution ⟨2, 2⟩) → (A 0).Agree (A 1) := by
  intro σ
  have hobtains : Obtains σ ⟨2, 2⟩ := by
    have hfirst : Obtains ⟨#[⟨0, .whole 0 (.apply "f" [.var ⟨"X", some 0⟩]), 0⟩]⟩ ⟨1, 2⟩ :=
      (Obtains.empty .empty |>.allocate 2).unify .byTerm 1 (.whole 0 (.var ⟨"X", some 0⟩))
        (.whole 0 (.apply "f" [.var ⟨"X", some 0⟩])) (by with_unfolding_all rfl)
    exact hfirst.unify .byTerm 1 (.whole 0 (.var ⟨"Y", some 1⟩))
      (.whole 0 (.apply "f" [.var ⟨"Y", some 1⟩])) (by with_unfolding_all rfl)
  refine ⟨hobtains, fun A hfree hs => ?_⟩
  have hbindings : (σ.substitution ⟨2, 2⟩).bindings =
      [(1, .whole 0 (.apply "f" [.var ⟨"Y", some 1⟩])),
        (0, .whole 0 (.apply "f" [.var ⟨"X", some 0⟩]))] := by with_unfolding_all rfl
  have hvalues : ∀ slot value, (slot, value) ∈ (σ.substitution ⟨2, 2⟩).bindings →
      value.term.isPlain := by
    intro slot value hmem
    rw [hbindings] at hmem
    rcases List.mem_pair.1 hmem with heq | heq <;> cases heq <;> decide
  obtain ⟨enough, hend⟩ := @unify_exact σ ⟨2, 2⟩ (.whole 1 (.var ⟨"X", some 0⟩))
    (.whole 1 (.var ⟨"Y", some 1⟩)) .byTerm hobtains hvalues (by decide) (by decide)
  have hunified : unify .byTerm false (enough + 3) σ ⟨2, 2⟩ (.whole 1 (.var ⟨"X", some 0⟩))
      (.whole 1 (.var ⟨"Y", some 1⟩)) = .unified σ ⟨2, 2⟩ := by with_unfolding_all rfl
  rcases (hend (enough + 3) (Nat.le_add_right ..)).2 with ⟨τ, hclash⟩ | ⟨τ, d, hresult, hrest⟩
  · rw [hunified] at hclash
    cases hclash
  · rw [hunified] at hresult
    cases hresult
    obtain ⟨_, _, _, _, hiff⟩ := hrest
    exact ((hiff A hfree).1 hs).2

end Store

end ClauseResolution
