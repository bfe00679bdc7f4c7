import ClauseResolution.Proofs.Unification.Unchecked

/-!
# Contexts that are reached stay well-founded

The loops that follow variables, rebuild terms, search for variables and solve pairs have
no bound of their own: whether they end depends on the bindings. Every context that is
reached by allocating, renaming and unifying binds free variables only, to what is
followed already, so that following variables ends. If moreover every unification made the
occurs check, no slot leads to itself, and the other loops end as well, with the results
that the bounded functions give.
-/

namespace ClauseResolution

/-- The extent of a list of terms does not depend on their order. -/
theorem Term.extents_reverse (ts : List Term) : extents ts.reverse = extents ts := by
  induction ts with
  | nil => rfl
  | cons t ts ih =>
    simp only [List.reverse_cons, extents_append, extents, ih]
    omega

namespace Store

variable {σ τ : Store} {c d : Context} {layout : Layout} {always occursCheck : Bool}

/-- The context is reached from the empty one by allocating slots, renaming clauses and
unifying, where the occurs check may be required `always`. Every unification may find terms
stored in other places. Other contexts may be extended in the meantime, also by unifications
that clash. -/
inductive Reached (always : Bool) : Store → Context → Prop
  /-- The empty context. -/
  | empty (σ : Store) : Reached always σ .empty
  /-- Slots are allocated. -/
  | allocate {σ : Store} {c : Context} (hc : Reached always σ c) (count : Nat) :
      Reached always σ (c.allocate count).1
  /-- A clause is renamed. -/
  | rename {σ : Store} {c : Context} (hc : Reached always σ c) (clause : Clause) :
      Reached always σ (clause.rename c).context
  /-- Two terms are unified. -/
  | unify {σ τ : Store} {c d : Context} (hc : Reached always σ c) (layout : Layout)
      (occursCheck : Bool) (hcheck : always = true → occursCheck = true) (steps : Nat)
      (left right : Occurrence)
      (hunify : ClauseResolution.unify layout occursCheck steps σ c left right = .unified τ d) :
      Reached always τ d
  /-- Bindings of other contexts are added to the store. -/
  | grow {σ τ : Store} {c : Context} (hc : Reached always σ c) (hgrows : σ.Grows τ) :
      Reached always τ c

/-- A slot is bound to a variable with another slot. -/
def Links (σ : Store) (c : Context) (i j : Nat) : Prop :=
  ∃ v : Var, σ.lookup c i = some (.var v) ∧ v.index = some j

/-- The loop that follows variables goes from a bound variable to its value. -/
def Hops (σ : Store) (c : Context) (t next : Term) : Prop :=
  ∃ v slot, t = .var v ∧ v.index = some slot ∧ σ.lookup c slot = some next

/-- The loop that follows variables comes from a term to another one, and stops there. -/
structure Stops (σ : Store) (c : Context) (t last : Term) : Prop where
  /-- The way that the loop goes. -/
  way : Relation.ReflTransGen (σ.Hops c) t last
  /-- It goes no further. -/
  stop : ∀ next, ¬ σ.Hops c last next

/-- The recursion that rebuilds a term from what its variables stand for ends with a term. -/
inductive Rebuilds (σ : Store) (c : Context) : Term → Term → Prop
  /-- What is no compound term is left in place. -/
  | leaf {t last : Term} (hstops : σ.Stops c t last) (hleaf : last.toCompound? = none) :
      Rebuilds σ c t last
  /-- The arguments of a compound term are rebuilt. -/
  | compound {t : Term} {functor : String} {args results : List Term} {varCount : Nat}
      (hstops : σ.Stops c t (.compound functor args varCount))
      (hargs : List.Forall₂ (Rebuilds σ c) args results) : Rebuilds σ c t (.apply functor results)

/-- The variable that is searched for stands here. -/
def Hits (target : Var) (t : Term) : Prop :=
  ∃ v : Var, t = .var v ∧ v.index.isSome ∧ v.same target

/-- The search for a variable among pending terms ends with an answer. Terms that are met
again are searched again. -/
inductive Searches (σ : Store) (c : Context) (target : Var) : List Term → Bool → Prop
  /-- Nothing is left. -/
  | exhausted : Searches σ c target [] false
  /-- The variable is met. -/
  | hit {t last : Term} {rest : List Term} (hstops : σ.Stops c t last) (hhit : Hits target last) :
      Searches σ c target (t :: rest) true
  /-- Another leaf is passed over. -/
  | leaf {t last : Term} {rest : List Term} {found : Bool} (hstops : σ.Stops c t last)
      (hleaf : last.toCompound? = none) (hmiss : ¬ Hits target last)
      (hrest : Searches σ c target rest found) : Searches σ c target (t :: rest) found
  /-- The arguments of a compound term are searched, the last one first. -/
  | compound {t : Term} {functor : String} {args rest : List Term} {varCount : Nat} {found : Bool}
      (hstops : σ.Stops c t (.compound functor args varCount))
      (hrest : Searches σ c target (args.reverse ++ rest) found) :
      Searches σ c target (t :: rest) found

/-- The states that the unification of two terms passes through: the store and the
context, the pairs entered, and those that are pending. -/
inductive Unifying (layout : Layout) (occursCheck : Bool) (σ₀ : Store) (c₀ : Context)
    (left right : Occurrence) :
    Store → Context → List (Occurrence × Occurrence) → List (Occurrence × Occurrence) → Prop
  /-- The two terms are pending. -/
  | start : Unifying layout occursCheck σ₀ c₀ left right σ₀ c₀ [] [(left, right)]
  /-- A pair is dropped. -/
  | skip {σ : Store} {c : Context} {l r : Occurrence}
      {entered pending : List (Occurrence × Occurrence)}
      (h : Unifying layout occursCheck σ₀ c₀ left right σ c entered ((l, r) :: pending))
      (hstep : (σ.substitution c).pairStep layout occursCheck entered l r = .skip) :
      Unifying layout occursCheck σ₀ c₀ left right σ c entered pending
  /-- A variable is bound. -/
  | bind {σ : Store} {c : Context} {l r value : Occurrence} {v : Var}
      {entered pending : List (Occurrence × Occurrence)}
      (h : Unifying layout occursCheck σ₀ c₀ left right σ c entered ((l, r) :: pending))
      (hstep : (σ.substitution c).pairStep layout occursCheck entered l r = .bind v value) :
      Unifying layout occursCheck σ₀ c₀ left right (σ.bind c v value).1 (σ.bind c v value).2
        entered pending
  /-- The arguments of a pair are taken up. -/
  | descend {σ : Store} {c : Context} {l r a b : Occurrence} {remember : Bool}
      {entered pending : List (Occurrence × Occurrence)}
      (h : Unifying layout occursCheck σ₀ c₀ left right σ c entered ((l, r) :: pending))
      (hstep : (σ.substitution c).pairStep layout occursCheck entered l r = .descend a b remember) :
      Unifying layout occursCheck σ₀ c₀ left right σ c
        (if remember then (a, b) :: entered else entered) (a.args.zip b.args ++ pending)

/-- The states that a unification passes through are those of the bounded function. -/
theorem Unifying.exists_unify_eq {left right : Occurrence}
    {entered pending : List (Occurrence × Occurrence)} (hc : σ.Holds c)
    (h : (σ.substitution c).Settles)
    (hpass : Unifying layout occursCheck σ c left right τ d entered pending) :
    (τ.Holds d ∧ (τ.substitution d).Settles) ∧ ∃ done, ∀ steps,
      ClauseResolution.unify layout occursCheck (steps + done) σ c left right =
        unifyPairs layout occursCheck steps τ d entered pending := by
  induction hpass with
  | start => exact ⟨⟨hc, h⟩, 0, fun steps => rfl⟩
  | @skip τ d l r entered pending _ hstep ih =>
    obtain ⟨⟨hd, hsettles⟩, done, heq⟩ := ih
    refine ⟨⟨hd, hsettles⟩, done + 1, fun steps => ?_⟩
    rw [← Nat.add_assoc, Nat.add_right_comm, heq, unifyPairs_cons (deref_eq hsettles), hstep]
  | @bind τ d l r value v entered pending _ hstep ih =>
    obtain ⟨⟨hd, hsettles⟩, done, heq⟩ := ih
    have htreats := (τ.substitution d).treats_pairStep layout occursCheck entered l r
    rw [hstep] at htreats
    obtain ⟨_, hholds, hsubst⟩ := bind_of_treats hd htreats
    refine ⟨⟨hholds, hsubst ▸ htreats.settles_bind hsettles⟩, done + 1, fun steps => ?_⟩
    rw [← Nat.add_assoc, Nat.add_right_comm, heq, unifyPairs_cons (deref_eq hsettles), hstep]
  | @descend τ d l r a b remember entered pending _ hstep ih =>
    obtain ⟨⟨hd, hsettles⟩, done, heq⟩ := ih
    refine ⟨⟨hd, hsettles⟩, done + 1, fun steps => ?_⟩
    rw [← Nat.add_assoc, Nat.add_right_comm, heq, unifyPairs_cons (deref_eq hsettles), hstep]

/-- What a unification returns from an orderly context is orderly, and acyclic if it was
acyclic and the occurs check was made. -/
theorem wellFounded_of_unify {steps : Nat} {left right : Occurrence} (hc : σ.Holds c)
    (h : (σ.substitution c).Orderly)
    (hunify : ClauseResolution.unify layout occursCheck steps σ c left right = .unified τ d) :
    τ.Holds d ∧ (τ.substitution d).Orderly ∧
      (occursCheck = true → (σ.substitution c).Acyclic → (τ.substitution d).Acyclic) := by
  obtain ⟨hd, hunified⟩ := unifyPairs_of_unify hc h.settles hunify
  exact ⟨hd, h.unifyPairs hunified, fun hcheck hacyclic =>
    Substitution.acyclic_of_unified (fun _ => hacyclic) hunified hcheck⟩

/-- A context that is reached is one of the store and orderly, and it is acyclic if all
unifications made the occurs check. -/
theorem Reached.wellFounded (h : Reached always σ c) :
    σ.Holds c ∧ (σ.substitution c).Orderly ∧ (always = true → (σ.substitution c).Acyclic) := by
  induction h with
  | empty σ =>
    have hnil : (σ.substitution .empty).bindings = [] := by
      rw [substitution, Context.empty, chain]
    exact ⟨Nat.zero_le _, ⟨Substitution.settles_of_bindings_eq_nil hnil, by simp [hnil]⟩,
      fun _ => Substitution.acyclic_of_bindings_eq_nil hnil⟩
  | allocate _ count ih | rename _ clause ih =>
    obtain ⟨hholds, horderly, hacyclic⟩ := ih
    exact ⟨hholds, ⟨horderly.settles.withTop _, horderly.nodup⟩, hacyclic⟩
  | unify _ layout occursCheck hcheck steps left right hunify ih =>
    obtain ⟨hholds, horderly, hacyclic⟩ := ih
    obtain ⟨hd, hnew, hkeeps⟩ := wellFounded_of_unify hholds horderly hunify
    exact ⟨hd, hnew, fun halways => hkeeps (hcheck halways) (hacyclic halways)⟩
  | grow _ hgrows ih =>
    obtain ⟨hholds, hrest⟩ := ih
    rw [hgrows.agree.substitution_eq hholds] at hrest
    exact ⟨hholds.of_grows hgrows, hrest⟩

/-- A binding that a unification makes is one that the unification of the variable and its
value makes. -/
theorem Reached.bind {entered : List (Occurrence × Occurrence)} {l r value : Occurrence} {v : Var}
    (h : Reached always σ c) (hcheck : always = true → occursCheck = true)
    (hstep : (σ.substitution c).pairStep layout occursCheck entered l r = .bind v value) :
    Reached always (σ.bind c v value).1 (σ.bind c v value).2 := by
  obtain ⟨_, horderly, _⟩ := h.wellFounded
  have htreats := (σ.substitution c).treats_pairStep layout occursCheck entered l r
  rw [hstep] at htreats
  obtain ⟨hnamed, hself⟩ := htreats.bind_named
  obtain ⟨hsettled, hfree⟩ := htreats.bind_free horderly.settles
  cases hindex : v.index with
  | none =>
    rw [Store.bind, hindex]
    exact h
  | some slot =>
    have hvar : (σ.substitution c).deref (.whole 0 (.var v)) = .whole 0 (.var v) := by
      refine Substitution.deref_of_settled ?_
      rw [Substitution.Settled, Substitution.follow, Occurrence.slot?, Occurrence.whole, Term.slot?,
        hindex, Option.bind_some, hfree slot hindex]
    have hvalue : (σ.substitution c).deref value = value := Substitution.deref_of_settled hsettled
    have hconstant : (Term.var v).sameConstant value.term = false := by
      have hne := hself slot hindex
      rw [Occurrence.slot?] at hne
      cases hterm : value.term with
      | var w =>
        rw [hterm, Term.slot?] at hne
        simpa [Term.sameConstant, hindex] using Ne.symm hne
      | atom | number | compound => rfl
    -- The pair of the variable and its value calls for the same binding.
    have hpair : (σ.substitution c).pairStep layout occursCheck [] (.whole 0 (.var v)) value =
        .bind v value := by
      rw [Substitution.pairStep, Substitution.sameReference_of_var (s := σ.substitution c) (v := v)
        (Or.inl (by rw [hvar]; rfl)), hvar, hvalue, Occurrence.whole, hconstant]
      cases htreats with
      | link hl hr hv hw hsame =>
        simp [hr, hv, hw, hsame]
      | @assign v a b hside ha hb hv hoccurs =>
        cases hterm : value.term <;> simp_all [Occurrence.isVar]
    refine h.unify layout occursCheck hcheck 1 (.whole 0 (.var v)) value ?_
    rw [ClauseResolution.unify, unifyAll, unifyPairs_cons (deref_eq horderly.settles), hpair]
    simp only [unifyPairs]

/-- Every context that a unification passes through is reached. -/
theorem Reached.unifying {left right : Occurrence}
    {entered pending : List (Occurrence × Occurrence)}
    (h : Reached always σ c) (hcheck : always = true → occursCheck = true)
    (hpass : Unifying layout occursCheck σ c left right τ d entered pending) :
    Reached always τ d := by
  induction hpass with
  | start => exact h
  | skip _ _ ih => exact ih
  | bind _ hstep ih => exact ih.bind hcheck hstep
  | descend _ _ ih => exact ih

section Loops

/-- The loop that follows variables goes to the values that occurrences are followed to. -/
theorem hops_iff {o : Occurrence} {next : Term} :
    σ.Hops c o.term next ↔
      ∃ value, (σ.substitution c).follow o = some value ∧ value.term = next := by
  rw [Substitution.follow, Occurrence.slot?]
  constructor
  · rintro ⟨v, slot, hterm, hindex, hlookup⟩
    obtain ⟨value, hvalue, hnext⟩ := Option.map_eq_some_iff.1 hlookup
    refine ⟨value, ?_, hnext⟩
    rw [hterm, Term.slot?, hindex, Option.bind_some, valueAt_substitution, hvalue]
  · rintro ⟨value, hfollow, rfl⟩
    obtain ⟨slot, hslot, hvalue⟩ := Option.bind_eq_some_iff.1 hfollow
    rw [valueAt_substitution] at hvalue
    cases hterm : o.term with
    | var v =>
      rw [hterm] at hslot
      exact ⟨v, slot, rfl, hslot, by rw [lookup, hvalue, Option.map_some]⟩
    | atom | number | compound => simp [hterm, Term.slot?] at hslot

/-- Where following variables ends, the loop stops at what an occurrence stands for. -/
theorem stops_deref (h : (σ.substitution c).Settles) (o : Occurrence) :
    σ.Stops c o.term (σ.deref c o).term := by
  have hway : ∀ hops o, Relation.ReflTransGen (σ.Hops c) o.term
      ((σ.substitution c).followWithin hops o).term := by
    intro hops
    induction hops with
    | zero => exact fun o => .refl
    | succ hops ih =>
      intro o
      cases hfollow : (σ.substitution c).follow o with
      | none =>
        rw [Substitution.followWithin_of_settled hfollow]
      | some value =>
        rw [Substitution.followWithin_of_follow hfollow]
        exact .head (hops_iff.2 ⟨value, hfollow, rfl⟩) (ih value)
  rw [deref_eq h]
  refine ⟨hway _ o, fun next hnext => ?_⟩
  obtain ⟨value, hfollow, _⟩ := hops_iff.1 hnext
  have hsettled : (σ.substitution c).follow ((σ.substitution c).deref o) = none :=
    h.settled_deref o
  rw [hsettled] at hfollow
  cases hfollow

/-- Where following variables ends, no chain of variables comes back to its first slot. -/
theorem not_transGen_links (h : (σ.substitution c).Settles) (slot : Nat) :
    ¬ Relation.TransGen (σ.Links c) slot slot := by
  -- From a slot on a cycle one comes to a slot on a cycle, and never to an end.
  have hround : ∀ hops slot o, Occurrence.slot? o = some slot →
      Relation.TransGen (σ.Links c) slot slot →
      ¬ (σ.substitution c).Settled ((σ.substitution c).followWithin hops o) := by
    intro hops
    induction hops with
    | zero =>
      intro slot o ho hcycle hend
      obtain ⟨next, ⟨v, hlookup, _⟩, _⟩ := Relation.TransGen.head'_iff.1 hcycle
      obtain ⟨value, hvalue, _⟩ := Option.map_eq_some_iff.1 hlookup
      rw [Substitution.followWithin, Substitution.Settled, Substitution.follow, ho,
        Option.bind_some, valueAt_substitution, hvalue] at hend
      cases hend
    | succ hops ih =>
      intro slot o ho hcycle
      obtain ⟨next, hlink, hback⟩ := Relation.TransGen.head'_iff.1 hcycle
      obtain ⟨v, hlookup, hindex⟩ := id hlink
      obtain ⟨value, hvalue, hterm⟩ := Option.map_eq_some_iff.1 hlookup
      have hfollow : (σ.substitution c).follow o = some value := by
        rw [Substitution.follow, ho, Option.bind_some, valueAt_substitution, hvalue]
      rw [Substitution.followWithin_of_follow hfollow]
      refine ih next value ?_ (Relation.TransGen.tail' hback hlink)
      rw [Occurrence.slot?, hterm, Term.slot?, hindex]
  intro hcycle
  obtain ⟨hops, hend⟩ := h (.whole 0 (.var ⟨"X", some slot⟩))
  exact hround hops slot _ rfl hcycle hend

/-- In an acyclic context the recursion that rebuilds a term ends. -/
theorem rebuilds_of_acyclic (h : (σ.substitution c).Acyclic) (t : Term) :
    σ.Rebuilds c t (t.assign (σ.substitution c).solution) := by
  induction hextent : (t.assign (σ.substitution c).solution).extent using Nat.strongRecOn
    generalizing t with
  | ind n ih =>
    subst hextent
    have hstops := stops_deref h.settles (.whole 0 t)
    have hassign := h.assign_deref (.whole 0 t)
    rw [← deref_eq h.settles] at hassign
    simp only [Occurrence.whole] at hstops hassign
    rw [← hassign]
    cases hlast : (σ.deref c ⟨0, 0, t⟩).term with
    | atom | number =>
      rw [hlast] at hstops
      exact .leaf hstops rfl
    | var v =>
      have hfree : (Term.var v).assign (σ.substitution c).solution = .var v := by
        cases hindex : v.index with
        | none => rw [Term.assign, hindex, Option.bind_none, Option.getD_none]
        | some slot =>
          have hsolves := h.solves_solution slot
          rw [deref_eq h.settles] at hlast
          rw [Substitution.Solves, Substitution.valueAt_of_deref_var h.settles hlast hindex,
            Option.map_none] at hsolves
          rw [Term.assign_var_of_index hindex, hsolves, Option.getD_none]
      rw [hfree, ← hlast]
      exact .leaf hstops (by rw [hlast]; rfl)
    | compound functor args varCount =>
      rw [hlast] at hstops hassign
      rw [Term.assign_compound]
      refine .compound hstops (List.forall₂_map_right_iff.2
        (List.forall₂_same.2 fun arg harg => ?_))
      refine ih _ ?_ arg rfl
      have hlt := Term.extent_lt_extents_of_mem
        (List.mem_map_of_mem (f := Term.assign (σ.substitution c).solution) harg)
      rw [← hassign, Term.assign_compound, Term.extent]
      omega

/-- The search for a variable answers alike at a term and at what the term stands for. -/
theorem occurs_deref (h : (σ.substitution c).Settles) (v : Var) (o : Occurrence) :
    σ.occurs c v (σ.deref c o).term = σ.occurs c v o.term := by
  have hwithin : ∀ slot, (σ.substitution c).valueAt slot = none → ∀ hops o,
      (σ.substitution c).Reaches ((σ.substitution c).followWithin hops o).term slot ↔
        (σ.substitution c).Reaches o.term slot := by
    intro slot hfree hops
    induction hops with
    | zero => exact fun o => Iff.rfl
    | succ hops ih =>
      intro o
      cases hfollow : (σ.substitution c).follow o with
      | none => rw [Substitution.followWithin_of_settled hfollow]
      | some value =>
        rw [Substitution.followWithin_of_follow hfollow, ih]
        obtain ⟨i, hi, hvalue⟩ := Option.bind_eq_some_iff.1 hfollow
        obtain ⟨v, hterm, hindex⟩ : ∃ v : Var, o.term = .var v ∧ v.index = some i := by
          obtain ⟨text, node, term⟩ := o
          cases term with
          | var v => exact ⟨v, rfl, hi⟩
          | atom | number | compound => simp [Occurrence.slot?, Term.slot?] at hi
        rw [hterm]
        refine ⟨fun hreach => hreach.of_value hindex hvalue, ?_⟩
        -- The slot itself is bound, so the way from it to a free slot goes through its value.
        rintro ⟨j, hj, hpath⟩
        obtain rfl : i = j := by simpa [hindex] using hj
        rcases hpath.cases_head with rfl | ⟨next, ⟨other, hother, hnext⟩, hrest⟩
        · rw [hfree] at hvalue
          cases hvalue
        · rw [hvalue] at hother
          cases hother
          exact ⟨next, hnext, hrest⟩
  rw [deref_eq h, Bool.eq_iff_iff, occurs_iff, occurs_iff]
  refine exists_congr fun slot => and_congr_right fun _ => and_congr_right fun hfree => ?_
  exact hwithin slot hfree _ o

/-- At a leaf where following ends, the occurs test asks whether the variable stands here. -/
theorem occurs_leaf_iff {target : Var} {last : Term} (hstop : ∀ next, ¬ σ.Hops c last next)
    (hleaf : last.toCompound? = none) : σ.occurs c target last = true ↔ Hits target last := by
  rw [occurs_iff]
  cases last with
  | atom | number => simp [Substitution.Reaches, Hits]
  | compound => cases hleaf
  | var v =>
    have hfree : ∀ i, v.index = some i → (σ.substitution c).valueAt i = none := by
      intro i hindex
      rw [valueAt_substitution, ← Option.map_eq_none_iff (f := Occurrence.term), ← lookup]
      exact Option.eq_none_iff_forall_not_mem.2 fun next hnext =>
        hstop next ⟨v, i, rfl, hindex, hnext⟩
    constructor
    · rintro ⟨slot, htarget, _, i, hi, hpath⟩
      rw [Term.mem_slots_var] at hi
      rcases hpath.cases_head with rfl | ⟨next, ⟨value, hvalue, _⟩, _⟩
      · exact ⟨v, rfl, by rw [hi]; rfl, (Var.same_iff_index hi).2 htarget⟩
      · rw [hfree i hi] at hvalue
        cases hvalue
    · rintro ⟨w, hw, hsome, hsame⟩
      cases hw
      obtain ⟨i, hi⟩ := Option.isSome_iff_exists.1 hsome
      exact ⟨i, (Var.same_iff_index hi).1 hsame, hfree i hi, i, Term.mem_slots_var.2 hi, .refl⟩

/-- A variable occurs in a compound term when it occurs in one of the arguments. -/
theorem occurs_compound (σ : Store) (c : Context) (target : Var) (functor : String)
    (args : List Term) (varCount : Nat) :
    σ.occurs c target (.compound functor args varCount) = args.any (σ.occurs c target) := by
  rw [Bool.eq_iff_iff, List.any_eq_true]
  simp only [occurs_iff]
  constructor
  · rintro ⟨slot, htarget, hfree, i, hi, hpath⟩
    obtain ⟨arg, harg, hi⟩ := Term.mem_slots_compound.1 hi
    exact ⟨arg, harg, slot, htarget, hfree, i, hi, hpath⟩
  · rintro ⟨arg, harg, slot, htarget, hfree, hreach⟩
    exact ⟨slot, htarget, hfree, hreach.of_arg harg⟩

/-- In an acyclic context the search for a variable ends with the answer of the occurs
test. -/
theorem searches_of_acyclic (h : (σ.substitution c).Acyclic) (target : Var) (pending : List Term) :
    σ.Searches c target pending (pending.any (σ.occurs c target)) := by
  induction hextent : Term.extents (pending.map (Term.assign (σ.substitution c).solution))
    using Nat.strongRecOn generalizing pending with
  | ind n ih =>
    subst hextent
    cases pending with
    | nil => exact .exhausted
    | cons t rest =>
      have hstops := stops_deref h.settles (.whole 0 t)
      have hassign := h.assign_deref (.whole 0 t)
      have hoccurs := occurs_deref h.settles target (.whole 0 t)
      rw [← deref_eq h.settles] at hassign
      simp only [Occurrence.whole] at hstops hassign hoccurs
      have hrest : σ.Searches c target rest (rest.any (σ.occurs c target)) := by
        refine ih _ ?_ rest rfl
        simp only [List.map_cons, Term.extents]
        omega
      rw [List.any_cons, ← hoccurs]
      generalize (σ.deref c ⟨0, 0, t⟩).term = last at hstops hassign
      cases hleaf : last.toCompound? with
      | none =>
        cases hfound : σ.occurs c target last with
        | true =>
          rw [Bool.true_or]
          exact .hit hstops ((occurs_leaf_iff hstops.stop hleaf).1 hfound)
        | false =>
          rw [Bool.false_or]
          refine .leaf hstops hleaf (fun hhit => ?_) hrest
          rw [(occurs_leaf_iff hstops.stop hleaf).2 hhit] at hfound
          cases hfound
      | some parts =>
        cases last with
        | compound functor args varCount =>
          refine .compound hstops ?_
          rw [occurs_compound, ← List.any_reverse, ← List.any_append]
          refine ih _ ?_ _ rfl
          rw [List.map_append, Term.extents_append, List.map_cons, Term.extents, ← hassign,
            Term.assign_compound, Term.extent, List.map_reverse, Term.extents_reverse]
          omega
        | atom | number | var => cases hleaf

end Loops

/-- In every context that is reached, chains of variables are acyclic and the loop that
follows variables stops at what the term stands for; the same holds in every context that
a unification passes through on its way, since all of these are reached. If all
unifications made the occurs check, no slot leads to itself; rebuilding a term, searching
for a variable and any further checked unification then end. -/
theorem reached_wellFounded (h : Reached always σ c) :
    (∀ slot, ¬ Relation.TransGen (σ.Links c) slot slot) ∧
    (∀ o : Occurrence, σ.Stops c o.term (σ.deref c o).term) ∧
    (∀ layout occursCheck left right τ d entered pending, (always = true → occursCheck = true) →
      Unifying layout occursCheck σ c left right τ d entered pending →
        Reached always τ d ∧ ∃ done, ∀ steps,
          unify layout occursCheck (steps + done) σ c left right =
            unifyPairs layout occursCheck steps τ d entered pending) ∧
    (always = true →
      (∀ slot, ¬ Relation.TransGen (σ.substitution c).Leads slot slot) ∧
      (∀ t, ∃ result, σ.reify c t = some result ∧ σ.Rebuilds c t result) ∧
      (∀ target t, σ.Searches c target [t] (σ.occurs c target t)) ∧
      ∀ layout left right, ∃ enough, ∀ steps ≥ enough,
        unify layout true steps σ c left right ≠ .unfinished) := by
  obtain ⟨hholds, horderly, hacyclic⟩ := h.wellFounded
  refine ⟨not_transGen_links horderly.settles, stops_deref horderly.settles, ?_, ?_⟩
  · intro layout occursCheck left right τ d entered pending hcheck hpass
    exact ⟨h.unifying hcheck hpass, (hpass.exists_unify_eq hholds horderly.settles).2⟩
  · intro halways
    have hacyclic := hacyclic halways
    refine ⟨hacyclic, fun t => ?_, fun target t => ?_, fun layout left right => ?_⟩
    · exact ⟨_, reify_eq_solution hacyclic t, rebuilds_of_acyclic hacyclic t⟩
    · have hsearches := searches_of_acyclic hacyclic target [t]
      rwa [List.any_cons, List.any_nil, Bool.or_false] at hsearches
    · obtain ⟨slots, hslots⟩ := (σ.substitution c).exists_confined [(left, right)]
      obtain ⟨enough, hend⟩ : ∃ steps, (σ.substitution c).unifyPairs layout true steps []
          [(left, right)] ≠ .unfinished :=
        Substitution.exists_unifyPairs_ne_unfinished hacyclic hslots
      refine ⟨enough, fun steps hsteps hunfinished => ?_⟩
      rw [← Substitution.unifyPairs_mono hsteps hend] at hend
      have hrealizes := unifyPairs_realizes hholds hacyclic.settles layout true steps []
        [(left, right)]
      rw [unify, unifyAll] at hunfinished
      rw [hunfinished] at hrealizes
      cases hverdict : (σ.substitution c).unifyPairs layout true steps [] [(left, right)] with
      | unfinished => exact hend hverdict
      | unified | clash => simp [hverdict, Unified.Realizes] at hrealizes

/-- With `X` bound to `f(Y)` and `Y` to `a`, rebuilding `g(X, Y)` ends with `g(f(a), a)`. -/
theorem reached_wellFounded_nested :
    let σ : Store := ⟨#[⟨0, .whole 0 (.apply "f" [.var ⟨"Y", some 1⟩]), 0⟩,
      ⟨1, .whole 0 (.atom "a"), 1⟩]⟩
    Reached true σ ⟨2, 2⟩ ∧
      σ.Rebuilds ⟨2, 2⟩ (.apply "g" [.var ⟨"X", some 0⟩, .var ⟨"Y", some 1⟩])
        (.apply "g" [.apply "f" [.atom "a"], .atom "a"]) := by
  intro σ
  have hreached : Reached true σ ⟨2, 2⟩ := by
    have hfirst : Reached true ⟨#[⟨0, .whole 0 (.apply "f" [.var ⟨"Y", some 1⟩]), 0⟩]⟩ ⟨1, 2⟩ :=
      (Reached.empty .empty |>.allocate 2).unify .byTerm true id 1 (.whole 0 (.var ⟨"X", some 0⟩))
        (.whole 0 (.apply "f" [.var ⟨"Y", some 1⟩])) (by cbv)
    exact hfirst.unify .byTerm true id 1 (.whole 0 (.var ⟨"Y", some 1⟩)) (.whole 0 (.atom "a"))
      (by cbv)
  obtain ⟨_, _, _, hchecked⟩ := reached_wellFounded hreached
  obtain ⟨_, hrebuilds, _⟩ := hchecked rfl
  obtain ⟨result, hreify, hresult⟩ :=
    hrebuilds (.apply "g" [.var ⟨"X", some 0⟩, .var ⟨"Y", some 1⟩])
  have horder : σ.slotOrder ⟨2, 2⟩ 2 [] []
      [.visit (.apply "g" [.var ⟨"X", some 0⟩, .var ⟨"Y", some 1⟩])] = some [0, 1] := by cbv
  have heq : σ.reify ⟨2, 2⟩ (.apply "g" [.var ⟨"X", some 0⟩, .var ⟨"Y", some 1⟩]) =
      some (.apply "g" [.apply "f" [.atom "a"], .atom "a"]) := by
    rw [reify, horder]
    with_unfolding_all rfl
  rw [heq] at hreify
  cases hreify
  exact ⟨hreached, hresult⟩

/-- A unification that ends on the substitution ends in the same way on the store, whatever
number of further steps is granted. -/
theorem exists_ending {enough : Nat} {left right : Occurrence} (hc : σ.Holds c)
    (h : (σ.substitution c).Settles)
    (hend : (σ.substitution c).unifyPairs layout occursCheck enough [] [(left, right)] ≠
      .unfinished) :
    ∃ result, ((∃ τ d, result = .unified τ d) ∨ ∃ τ, result = .clash τ) ∧
      ∀ steps ≥ enough, unify layout occursCheck steps σ c left right = result := by
  have hresult : unify layout occursCheck enough σ c left right ≠ .unfinished := by
    intro hunfinished
    rw [← verdict_unify hc h, hunfinished] at hend
    exact hend rfl
  refine ⟨unify layout occursCheck enough σ c left right, ?_, fun steps hsteps =>
    unifyPairs_mono hsteps hresult⟩
  cases hunify : unify layout occursCheck enough σ c left right with
  | unified τ d => exact Or.inl ⟨τ, d, rfl⟩
  | clash τ => exact Or.inr ⟨τ, rfl⟩
  | unfinished => exact absurd hunify hresult

/-- Unification ends in every context that is reached, and with the occurs check if that context
is acyclic. -/
theorem Reached.exists_unify_eq (h : Reached always σ c) (layout : Layout)
    (hacyclic : occursCheck = true → (σ.substitution c).Acyclic) (left right : Occurrence) :
    ∃ enough result, ((∃ τ d, result = .unified τ d) ∨ ∃ τ, result = .clash τ) ∧
      ∀ steps ≥ enough, ClauseResolution.unify layout occursCheck steps σ c left right =
        result := by
  obtain ⟨hholds, horderly, _⟩ := h.wellFounded
  obtain ⟨enough, hend⟩ : ∃ enough, (σ.substitution c).unifyPairs layout occursCheck enough []
      [(left, right)] ≠ .unfinished := by
    cases occursCheck with
    | false =>
      obtain ⟨texts, htexts⟩ := (σ.substitution c).exists_within [(left, right)]
      exact horderly.exists_unchecked_ne_unfinished [] htexts
    | true =>
      obtain ⟨slots, hslots⟩ := (σ.substitution c).exists_confined [(left, right)]
      exact Substitution.exists_unifyPairs_ne_unfinished (hacyclic rfl) hslots
  exact ⟨enough, exists_ending hholds horderly.settles hend⟩

/-- Unchecked unification ends in every context that is reached, also in a cyclic one, for
whatever terms and wherever these are stored: there is a number of steps that suffices, and then
the answer is a context or a clash. In every state on the way the loop that follows variables ends
as well. -/
theorem unchecked_unify_ends (h : Reached false σ c) (layout : Layout) (left right : Occurrence) :
    (∃ enough result, ((∃ τ d, result = .unified τ d) ∨ ∃ τ, result = .clash τ) ∧
      ∀ steps ≥ enough, unify layout false steps σ c left right = result) ∧
    ∀ τ d entered pending, Unifying layout false σ c left right τ d entered pending →
      ∀ o : Occurrence, τ.Stops d o.term (τ.deref d o).term := by
  obtain ⟨hholds, horderly, _⟩ := h.wellFounded
  refine ⟨h.exists_unify_eq layout Bool.noConfusion left right, fun τ d entered pending hpass => ?_⟩
  obtain ⟨⟨_, hsettles⟩, _⟩ := hpass.exists_unify_eq hholds horderly.settles
  exact stops_deref hsettles

/-- With `X` bound to `f(X)` and `Y` to `f(Y)`, unifying `X` and `Y` ends with the old context:
the second time the pair is met it was entered. -/
theorem unchecked_unify_ends_cyclic :
    let σ : Store := ⟨#[⟨0, .whole 0 (.apply "f" [.var ⟨"X", some 0⟩]), 0⟩,
      ⟨1, .whole 0 (.apply "f" [.var ⟨"Y", some 1⟩]), 1⟩]⟩
    Reached false σ ⟨2, 2⟩ ∧ ∃ enough, ∀ steps ≥ enough,
      unify .byTerm false steps σ ⟨2, 2⟩ (.whole 1 (.var ⟨"X", some 0⟩))
        (.whole 1 (.var ⟨"Y", some 1⟩)) = .unified σ ⟨2, 2⟩ := by
  intro σ
  have hreached : Reached false σ ⟨2, 2⟩ := by
    have hfirst : Reached false ⟨#[⟨0, .whole 0 (.apply "f" [.var ⟨"X", some 0⟩]), 0⟩]⟩ ⟨1, 2⟩ :=
      (Reached.empty .empty |>.allocate 2).unify .byTerm false nofun 1
        (.whole 0 (.var ⟨"X", some 0⟩)) (.whole 0 (.apply "f" [.var ⟨"X", some 0⟩])) (by cbv)
    exact hfirst.unify .byTerm false nofun 1 (.whole 0 (.var ⟨"Y", some 1⟩))
      (.whole 0 (.apply "f" [.var ⟨"Y", some 1⟩])) (by cbv)
  obtain ⟨⟨enough, result, _, hresult⟩, _⟩ := unchecked_unify_ends hreached .byTerm
    (.whole 1 (.var ⟨"X", some 0⟩)) (.whole 1 (.var ⟨"Y", some 1⟩))
  have heq : unify .byTerm false (enough + 3) σ ⟨2, 2⟩ (.whole 1 (.var ⟨"X", some 0⟩))
      (.whole 1 (.var ⟨"Y", some 1⟩)) = .unified σ ⟨2, 2⟩ := by with_unfolding_all rfl
  rw [hresult (enough + 3) (Nat.le_add_right ..)] at heq
  exact ⟨hreached, enough, fun steps hsteps => (hresult steps hsteps).trans heq⟩

end Store

end ClauseResolution
