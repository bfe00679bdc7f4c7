import ClauseResolution.Proofs.Unification.Outcome
import ClauseResolution.Proofs.Unification.Reached

/-!
# Unification with and without the occurs check

Without the occurs check a pair of compound terms is skipped when it was entered before, and a
variable is bound also where the check refuses. The latter makes a cycle, which no later binding
removes. The former makes no difference: when a pair is met again, it either was finished, and then
going through it once more binds nothing, or the walk is still below it, and then a term stands
below itself, which it cannot do as long as there is no cycle. So the two modes agree up to the
point where a cycle would be made.
-/

namespace ClauseResolution

namespace Substitution

variable {s s' s₁ : Substitution} {layout : Layout} {l r value : Occurrence} {v : Var}
  {result : Option Substitution}
  {entered entered' front rest : List (Occurrence × Occurrence)}

/-- A substitution that retains another one leads where that one leads. -/
theorem Retains.leads (h : s.Retains s') {i j : Nat} (hleads : s.Leads i j) : s'.Leads i j := by
  obtain ⟨value, hvalue, hj⟩ := hleads
  exact ⟨value, h i value hvalue, hj⟩

/-- A cycle remains in every longer substitution. -/
theorem Retains.acyclic (h : s.Retains s') (hs' : s'.Acyclic) : s.Acyclic :=
  fun slot hcycle => hs' slot (Relation.TransGen.mono (fun _ _ => h.leads) _ _ hcycle)

/-- Binding a variable to a term in which it occurs makes a cycle. -/
theorem not_acyclic_bind (hoccurs : s.occurs v value.term = true) : ¬ (s.bind v value).Acyclic := by
  obtain ⟨slot, hindex, hfree, i, hi, hway⟩ := (s.occurs_iff v value.term).1 hoccurs
  rw [bind, hindex]
  have hfirst : (s.extend slot value).Leads slot i :=
    (leads_extend_iff hfree).2 (Or.inr ⟨rfl, hi⟩)
  exact fun hacyclic => hacyclic slot
    (.head' hfirst (Relation.ReflTransGen.mono (fun _ _ => (retains_extend hfree).leads) _ _ hway))

/-- What the unchecked mode makes of a pair, by what the checked one makes of it. A binding that the
check refuses is made, and a pair that was entered before is skipped. -/
def Relaxes (s : Substitution) (layout : Layout) (entered : List (Occurrence × Occurrence)) :
    PairStep → PairStep → Prop
  | .skip, step => step = .skip
  | .clash, step =>
    step = .clash ∨ ∃ v value, step = .bind v value ∧ s.occurs v value.term = true
  | .bind v value, step => step = .bind v value
  | .descend a b _, step =>
    (∃ remember, step = .descend a b remember) ∨ step = .skip ∧ layout.met entered a b = true

/-- A pair calls in the unchecked mode for what it calls for in the checked one, but for the check
and for what was entered. -/
theorem relaxes_pairStep (s : Substitution) (layout : Layout)
    (entered : List (Occurrence × Occurrence)) (l r : Occurrence) :
    s.Relaxes layout entered (s.pairStep layout true [] l r)
      (s.pairStep layout false entered l r) := by
  unfold pairStep
  split
  · exact rfl
  · simp only [Bool.true_and, Bool.false_and, Bool.not_true, Bool.not_false, Bool.false_eq_true,
      if_false]
    cases hl : (s.deref l).term <;> cases hr : (s.deref r).term <;> dsimp only <;>
      (try split_ifs) <;>
      first
      | exact rfl
      | exact Or.inl rfl
      | exact Or.inl ⟨_, rfl⟩
      | exact Or.inr ⟨rfl, ‹_›⟩
      | exact Or.inr ⟨_, _, rfl, by simpa [hl, hr] using ‹_›⟩

/-- The unchecked mode comes from one state of its walk to another one. -/
def Passes (layout : Layout) (s : Substitution) (entered pending : List (Occurrence × Occurrence))
    (s' : Substitution) (entered' pending' : List (Occurrence × Occurrence)) : Prop :=
  ∃ done, ∀ steps, s.unifyPairs layout false (steps + done) entered pending =
    s'.unifyPairs layout false steps entered' pending'

/-- The unchecked mode makes a cycle if it does not clash. -/
def Spoils (layout : Layout) (s : Substitution) (entered pending : List (Occurrence × Occurrence)) :
    Prop :=
  ∀ steps s', s.unifyPairs layout false steps entered pending = .unified s' → ¬ s'.Acyclic

section Walk

variable {entered'' pending pending' pending'' : List (Occurrence × Occurrence)}
  {s'' : Substitution}

/-- The walk comes from every state to itself. -/
theorem Passes.refl (s : Substitution) (entered pending : List (Occurrence × Occurrence)) :
    Passes layout s entered pending s entered pending := ⟨0, fun _ => rfl⟩

/-- From where the walk comes to, it comes where it comes from there. -/
theorem Passes.trans (h : Passes layout s entered pending s' entered' pending')
    (h' : Passes layout s' entered' pending' s'' entered'' pending'') :
    Passes layout s entered pending s'' entered'' pending'' := by
  obtain ⟨done, hrun⟩ := h
  obtain ⟨done', hrun'⟩ := h'
  exact ⟨done' + done, fun steps => by rw [← Nat.add_assoc, hrun, hrun']⟩

/-- The walk goes past a pair that is skipped. -/
theorem passes_of_skip (hstep : s.pairStep layout false entered l r = .skip) :
    Passes layout s entered ((l, r) :: pending) s entered pending :=
  ⟨1, fun steps => by rw [unifyPairs, hstep]⟩

/-- The walk goes past a pair by binding a variable. -/
theorem passes_of_bind (hstep : s.pairStep layout false entered l r = .bind v value) :
    Passes layout s entered ((l, r) :: pending) (s.bind v value) entered pending :=
  ⟨1, fun steps => by rw [unifyPairs, hstep]⟩

/-- The walk goes from a pair to the pairs of the arguments. -/
theorem passes_of_descend {a b : Occurrence} {remember : Bool}
    (hstep : s.pairStep layout false entered l r = .descend a b remember) :
    Passes layout s entered ((l, r) :: pending) s (if remember then (a, b) :: entered else entered)
      (a.args.zip b.args ++ pending) :=
  ⟨1, fun steps => by rw [unifyPairs, hstep]⟩

/-- The walk makes a cycle or clashes if it comes to where it does. -/
theorem Passes.spoils (h : Passes layout s entered pending s' entered' pending')
    (hspoils : Spoils layout s' entered' pending') : Spoils layout s entered pending := by
  obtain ⟨done, hrun⟩ := h
  intro steps last hlast
  refine hspoils steps last ?_
  have hends : s.unifyPairs layout false steps entered pending ≠ .unfinished := by simp [hlast]
  rw [← hrun, unifyPairs_mono (Nat.le_add_right steps done) hends, hlast]

/-- A clash makes no acyclic result. -/
theorem spoils_of_clash (hstep : s.pairStep layout false entered l r = .clash) :
    Spoils layout s entered ((l, r) :: pending) := by
  intro steps last hlast
  cases steps with
  | zero => cases hlast
  | succ steps =>
    rw [unifyPairs, hstep] at hlast
    cases hlast

/-- A cycle that was made stays. -/
theorem spoils_of_not_acyclic (hs : s.Settles) (hcyclic : ¬ s.Acyclic) :
    Spoils layout s entered pending := by
  intro steps last hlast hacyclic
  obtain ⟨_, hretains⟩ := hs.unifyPairs_retains hlast
  exact hcyclic (hretains.acyclic hacyclic)

end Walk

/-- The arguments of a pair that was entered are stable, and solved. -/
def Finished (s : Substitution) (e : Occurrence × Occurrence) : Prop :=
  ∀ p ∈ e.1.args.zip e.2.args, (p.1.term.isStable ∧ p.2.term.isStable) ∧ s.Solved p.1 p.2

/-- It does not matter where the terms of the pair stand. -/
theorem Finished.congr {e : Occurrence × Occurrence} {a b : Occurrence} (h : s.Finished e)
    (ha : e.1.term = a.term) (hb : e.2.term = b.term) : s.Finished (a, b) := by
  intro p' hp'
  obtain ⟨p, hp, hfst, hsnd⟩ := Occurrence.exists_mem_zip_args ha hb hp'
  obtain ⟨⟨hl, hr⟩, hsolved⟩ := h p hp
  exact ⟨⟨hfst ▸ hl, hsnd ▸ hr⟩, hsolved.congr hfst hsnd⟩

/-- A pair that is finished remains so when more is bound. -/
theorem Finished.retains {e : Occurrence × Occurrence} (hfinished : s.Finished e)
    (h : s.Retains s') (hs : s.Steady) (hs' : s'.Steady) : s'.Finished e := by
  intro p hp
  obtain ⟨⟨hl, hr⟩, hsolved⟩ := hfinished p hp
  exact ⟨⟨hl, hr⟩, hsolved.retains h hs hs' hl hr⟩

/-- Every pair that was entered is finished, or the pairs ahead stand below it. -/
def Accounts (s : Substitution) (entered front : List (Occurrence × Occurrence)) : Prop :=
  ∀ e ∈ entered, s.Finished e ∨ ∀ p ∈ front, Relation.TransGen s.Under p.1 e.1

/-- What the unchecked mode does in front of any other pairs, by the outcome with the occurs
check. -/
def Reproduces (layout : Layout) (s : Substitution)
    (entered front : List (Occurrence × Occurrence)) :
    Option Substitution → Prop
  | some s' => ∃ entered', (∀ e ∈ entered', e ∈ entered ∨ s'.Finished e) ∧
      ∀ back, Passes layout s entered (front ++ back) s' entered' back
  | none => ∀ back, Spoils layout s entered (front ++ back)

/-- What the walk does in front of other pairs may begin by what it does to the first of them. -/
theorem Reproduces.of_passes (hreproduces : Reproduces layout s₁ entered' rest result)
    (hpasses : ∀ back, Passes layout s entered (front ++ back) s₁ entered' (rest ++ back))
    (hentered : ∀ s', result = some s' → ∀ e ∈ entered', e ∈ entered ∨ s'.Finished e) :
    Reproduces layout s entered front result := by
  cases result with
  | none => exact fun back => (hpasses back).spoils (hreproduces back)
  | some s' =>
    obtain ⟨entered'', hmem, hend⟩ := hreproduces
    refine ⟨entered'', fun e he => ?_, fun back => (hpasses back).trans (hend back)⟩
    rcases hmem e he with he | hfinished
    · exact hentered s' rfl e he
    · exact Or.inr hfinished

namespace Accounts

/-- Without the first pair, those that were entered are still finished or above the pairs ahead. -/
theorem tail {pair : Occurrence × Occurrence} (h : s.Accounts entered (pair :: rest)) :
    s.Accounts entered rest :=
  fun e he => (h e he).imp_right fun hunder p hp => hunder p (List.mem_cons_of_mem _ hp)

/-- Pairs that were entered stay finished or above the pairs ahead when more is bound. -/
theorem retains (h : s.Accounts entered front) (hretains : s.Retains s') (hs : s.Steady)
    (hs' : s'.Steady) : s'.Accounts entered front := by
  intro e he
  rcases h e he with hfinished | hunder
  · exact Or.inl (hfinished.retains hretains hs hs')
  · refine Or.inr fun p hp => ?_
    exact Relation.TransGen.mono (fun _ _ => hretains.under hs'.acyclic.settles) _ _ (hunder p hp)

/-- The arguments stand below the pair, and below whatever the pair stands below. -/
theorem descend (h : s.Accounts entered ((l, r) :: rest)) (hs : s.Settles) (remember : Bool) :
    s.Accounts (if remember then (s.deref l, s.deref r) :: entered else entered)
      ((s.deref l).args.zip (s.deref r).args) := by
  have hold : s.Accounts entered ((s.deref l).args.zip (s.deref r).args) := fun e he =>
    (h e he).imp_right fun hunder p hp =>
      .head (List.of_mem_zip hp).1 (hunder (l, r) List.mem_cons_self)
  cases remember with
  | false => exact hold
  | true =>
    refine List.forall_mem_cons.2 ⟨Or.inr fun p hp => .single ?_, hold⟩
    rw [Under, deref_of_settled (hs.settled_deref l)]
    exact (List.of_mem_zip hp).1

/-- A pair that is met again is finished: else it would stand below itself. It may be met in other
places, if the same terms are stored there. -/
theorem finished_of_met (h : s.Accounts entered ((l, r) :: rest)) (hs : s.Acyclic)
    (hmet : layout.met entered (s.deref l) (s.deref r) = true) :
    s.Finished (s.deref l, s.deref r) := by
  obtain ⟨e, hmem, hfst, hsnd⟩ := Layout.exists_mem_of_met hmet
  rcases h e hmem with hfinished | hunder
  · exact hfinished.congr hfst hsnd
  · exact absurd (hunder (l, r) List.mem_cons_self) (hs.not_transGen_under hfst)

end Accounts

/-- The unchecked mode comes to the substitution that the occurs check comes to, and makes a cycle
or clashes where the check refuses a pair. The induction is on the outcome, and the accounts of what
was entered are what it carries along. -/
theorem Outcome.reproduces (h : Outcome layout s front result) (hs : s.Steady)
    (hfront : ∀ p ∈ front, p.1.term.isStable ∧ p.2.term.isStable)
    (haccounts : s.Accounts entered front) : Reproduces layout s entered front result := by
  induction h generalizing entered with
  | nil => exact ⟨entered, fun _ => Or.inl, fun back => .refl _ entered back⟩
  | @skip s l r rest result hstep hrest ih =>
    obtain ⟨_, hstable⟩ := List.forall_mem_cons.1 hfront
    have hunchecked := s.relaxes_pairStep layout entered l r
    rw [hstep] at hunchecked
    exact (ih hs hstable haccounts.tail).of_passes (fun back => passes_of_skip hunchecked)
      fun _ _ _ => Or.inl
  | @clash s l r rest hstep =>
    have hunchecked := s.relaxes_pairStep layout entered l r
    have htreats := s.treats_pairStep layout false entered l r
    rw [hstep] at hunchecked
    rcases hunchecked with hunchecked | ⟨v, value, hunchecked, hoccurs⟩
    · exact fun back => spoils_of_clash hunchecked
    · rw [hunchecked] at htreats
      refine fun back => (passes_of_bind hunchecked).spoils ?_
      exact spoils_of_not_acyclic (htreats.settles_bind hs.acyclic.settles)
        (not_acyclic_bind hoccurs)
  | @bind s l r value v rest result hstep hrest ih =>
    obtain ⟨⟨hl, hr⟩, hstable⟩ := List.forall_mem_cons.1 hfront
    have hunchecked := s.relaxes_pairStep layout entered l r
    have htreats := s.treats_pairStep layout true [] l r
    rw [hstep] at hunchecked htreats
    have hbind := hs.bind hl hr htreats
    have haccounts' := haccounts.tail.retains (htreats.retains_bind hs.acyclic.settles) hs hbind
    exact (ih hbind hstable haccounts').of_passes (fun back => passes_of_bind hunchecked)
      fun _ _ _ => Or.inl
  | @descend s s₁ l r a b rest result hstep hargs hrest ihargs ihrest =>
    obtain ⟨⟨hl, hr⟩, hstable⟩ := List.forall_mem_cons.1 hfront
    have hunchecked := s.relaxes_pairStep layout entered l r
    rw [hstep] at hunchecked
    obtain ⟨rfl, rfl, _⟩ := sides_of_descend hstep
    have hargsStable := hs.isStable_args hl hr
    obtain ⟨hs₁, hretains, hsolved⟩ := hargs.solved hs hargsStable
    rcases hunchecked with ⟨remember, hunchecked⟩ | ⟨hunchecked, hmet⟩
    · obtain ⟨entered₁, hmem, hpass⟩ :=
        ihargs hs hargsStable (haccounts.descend hs.acyclic.settles remember)
      -- What was entered on the way is finished when the arguments are.
      have hentered : ∀ e ∈ entered₁, e ∈ entered ∨ s₁.Finished e := by
        intro e he
        rcases hmem e he with he | hfinished
        · cases remember with
          | false => exact Or.inl he
          | true =>
            rcases List.mem_cons.1 he with rfl | he
            · exact Or.inr fun p hp => ⟨hargsStable p hp, hsolved p hp⟩
            · exact Or.inl he
        · exact Or.inr hfinished
      have haccounts₁ : s₁.Accounts entered₁ rest := fun e he =>
        (hentered e he).elim (haccounts.tail.retains hretains hs hs₁ e) Or.inl
      refine (ihrest hs₁ hstable haccounts₁).of_passes (fun back => ?_) fun s' hresult e he => ?_
      · exact (passes_of_descend hunchecked).trans (hpass (rest ++ back))
      · subst hresult
        obtain ⟨hs', hretains', _⟩ := hrest.solved hs₁ hstable
        exact (hentered e he).imp_right fun hfinished => hfinished.retains hretains' hs₁ hs'
    · have hfinished := haccounts.finished_of_met hs.acyclic hmet
      cases hargs.eq_of_solved fun p hp => (hfinished p hp).2
      exact (ihrest hs hstable haccounts.tail).of_passes (fun back => passes_of_skip hunchecked)
        fun _ _ _ => Or.inl
  | @fail s l r a b rest hstep hargs ih =>
    obtain ⟨⟨hl, hr⟩, _⟩ := List.forall_mem_cons.1 hfront
    have hunchecked := s.relaxes_pairStep layout entered l r
    rw [hstep] at hunchecked
    obtain ⟨rfl, rfl, _⟩ := sides_of_descend hstep
    rcases hunchecked with ⟨remember, hunchecked⟩ | ⟨hunchecked, hmet⟩
    · have hspoils := ih hs (hs.isStable_args hl hr) (haccounts.descend hs.acyclic.settles remember)
      exact fun back => (passes_of_descend hunchecked).spoils (hspoils (rest ++ back))
    · have hfinished := haccounts.finished_of_met hs.acyclic hmet
      cases hargs.eq_of_solved fun p hp => (hfinished p hp).2

/-- From a steady substitution the unchecked mode unifies stable terms with an acyclic result
exactly if the checked one unifies them, and the result is the same. -/
theorem Steady.unifyPairs_iff {enough : Nat} (hs : s.Steady) (hl : l.term.isStable)
    (hr : r.term.isStable) (hchecked : s.unifyPairs layout true enough [] [(l, r)] ≠ .unfinished)
    (hunchecked : s.unifyPairs layout false enough [] [(l, r)] ≠ .unfinished) (s' : Substitution) :
    s.unifyPairs layout true enough [] [(l, r)] = .unified s' ↔
      s.unifyPairs layout false enough [] [(l, r)] = .unified s' ∧ s'.Acyclic := by
  have hstable : ∀ p ∈ [(l, r)], p.1.term.isStable ∧ p.2.term.isStable :=
    List.forall_mem_singleton.2 ⟨hl, hr⟩
  have hends := exists_outcome [(l, r)] [] hchecked
  rw [List.append_nil] at hends
  rcases hends with ⟨houtcome, hrun⟩ | ⟨s'', left, _, houtcome, hrun⟩
  · have hspoils := houtcome.reproduces hs hstable (List.forall_mem_nil _) []
    rw [hrun]
    exact ⟨Verdict.noConfusion, fun ⟨hunified, hacyclic⟩ => absurd hacyclic (hspoils _ _ hunified)⟩
  · obtain ⟨entered', _, hpass⟩ := houtcome.reproduces hs hstable (List.forall_mem_nil _)
    obtain ⟨done, hdone⟩ := hpass []
    have hlast : s.unifyPairs layout false enough [] [(l, r)] = .unified s'' := by
      rw [← unifyPairs_mono (Nat.le_add_right enough done) hunchecked, ← List.append_nil [(l, r)],
        hdone, unifyPairs]
    obtain ⟨hs'', _⟩ := houtcome.solved hs hstable
    rw [hrun, hlast, unifyPairs]
    exact ⟨fun h => ⟨h, by cases h; exact hs''.acyclic⟩, fun h => h.1⟩

end Substitution

namespace Store

variable {σ σ₀ τ : Store} {c c₀ d : Context} {layout : Layout} {left right : Occurrence}
  {occursCheck : Bool}

/-- Adds bindings to a context, the last of the list first. -/
def addAll (σ : Store) (c : Context) : List (Nat × Occurrence) → Store × Context
  | [] => (σ, c)
  | binding :: older =>
    let (τ, d) := σ.addAll c older
    let (τ, stamp) := τ.push ⟨binding.1, binding.2, d.stamp⟩
    (τ, ⟨stamp, d.top⟩)

/-- The context comes from an earlier one by nothing but adding the bindings that it has more. -/
def Adds (σ₀ : Store) (c₀ : Context) (σ : Store) (c : Context) : Prop :=
  ∃ newer, σ₀.addAll c₀ newer = (σ, c) ∧
    (σ.substitution c).bindings = newer ++ (σ₀.substitution c₀).bindings

/-- No bindings are added to a context that is the earlier one. -/
theorem Adds.refl (σ : Store) (c : Context) : Adds σ c σ c := ⟨[], rfl, rfl⟩

/-- The bindings tell what was added. -/
theorem Adds.unique (h : Adds σ₀ c₀ σ c) (h' : Adds σ₀ c₀ τ d)
    (heq : σ.substitution c = τ.substitution d) : σ = τ ∧ c = d := by
  obtain ⟨newer, hadd, hbindings⟩ := h
  obtain ⟨newer', hadd', hbindings'⟩ := h'
  rw [heq, hbindings', List.append_cancel_right_eq] at hbindings
  rw [← hbindings, hadd', Prod.mk.injEq] at hadd
  exact ⟨hadd.1.symm, hadd.2.symm⟩

/-- The binding that a pair calls for is added. -/
theorem Adds.bind {entered : List (Occurrence × Occurrence)} {l r value : Occurrence} {v : Var}
    (h : Adds σ₀ c₀ σ c) (hc : σ.Holds c)
    (htreats : (σ.substitution c).Treats layout occursCheck entered l r (.bind v value)) :
    Adds σ₀ c₀ (σ.bind c v value).1 (σ.bind c v value).2 := by
  obtain ⟨newer, hadd, hbindings⟩ := h
  obtain ⟨_, _, hsubst⟩ := bind_of_treats hc htreats
  obtain ⟨hv, hself⟩ := htreats.bind_named
  cases hindex : v.index with
  | none =>
    rw [Store.bind, hindex]
    exact ⟨newer, hadd, hbindings⟩
  | some slot =>
    refine ⟨(slot, value) :: newer, ?_, ?_⟩
    · rw [addAll, hadd, bind_of_slot hindex hv (hself slot hindex)]
      simp [push, size]
    · rw [hsubst, Substitution.bind, hindex]
      exact congrArg (List.cons _) hbindings

/-- A unification only adds bindings. -/
theorem Adds.unifyPairs {steps : Nat} {entered pending : List (Occurrence × Occurrence)}
    (h : Adds σ₀ c₀ σ c) (hc : σ.Holds c) (hsettles : (σ.substitution c).Settles)
    (hunify : ClauseResolution.unifyPairs layout occursCheck steps σ c entered pending =
      .unified τ d) :
    Adds σ₀ c₀ τ d := by
  induction steps generalizing σ c entered pending with
  | zero =>
    cases pending with
    | nil =>
      rw [ClauseResolution.unifyPairs] at hunify
      cases hunify
      exact h
    | cons pair pending => cases hunify
  | succ steps ih =>
    cases pending with
    | nil =>
      rw [ClauseResolution.unifyPairs] at hunify
      cases hunify
      exact h
    | cons pair pending =>
      obtain ⟨l, r⟩ := pair
      rw [unifyPairs_cons (deref_eq hsettles)] at hunify
      have htreats := (σ.substitution c).treats_pairStep layout occursCheck entered l r
      cases hstep : (σ.substitution c).pairStep layout occursCheck entered l r with
      | skip | descend => exact ih h hc hsettles (by simpa only [hstep] using hunify)
      | clash => simp [hstep] at hunify
      | bind v value =>
        rw [hstep] at htreats
        obtain ⟨_, hd, hsubst⟩ := bind_of_treats hc htreats
        exact ih (h.bind hc htreats) hd (hsubst ▸ htreats.settles_bind hsettles)
          (by simpa only [hstep] using hunify)

/-- Two unifications that come to one substitution come to one context of one store. -/
theorem unify_eq_of_verdict {occursCheck' : Bool} {steps steps' : Nat} (hc : σ.Holds c)
    (h : (σ.substitution c).Settles)
    (hunify : unify layout occursCheck steps σ c left right = .unified τ d)
    (hverdict : (unify layout occursCheck' steps' σ c left right).verdict =
      .unified (τ.substitution d)) :
    unify layout occursCheck' steps' σ c left right = .unified τ d := by
  cases hunify' : unify layout occursCheck' steps' σ c left right with
  | clash | unfinished =>
    rw [hunify'] at hverdict
    cases hverdict
  | unified υ e =>
    rw [hunify', Unified.verdict, Verdict.unified.injEq] at hverdict
    obtain ⟨rfl, rfl⟩ := ((Adds.refl σ c).unifyPairs hc h hunify').unique
      ((Adds.refl σ c).unifyPairs hc h hunify) hverdict
    rfl

/-- The two modes agree in an acyclic context when terms and bound values are stable. With enough
steps both end, and the checked mode unifies the terms exactly if the unchecked one does so with an
acyclic result. Both then leave one store and return one context. -/
theorem unify_modes_agree (layout : Layout) (h : Reached true σ c)
    (hvalues : ∀ binding ∈ (σ.substitution c).bindings, binding.2.term.isStable)
    (hleft : left.term.isStable) (hright : right.term.isStable) :
    ∃ enough, ∀ steps ≥ enough,
      unify layout true steps σ c left right ≠ .unfinished ∧
      unify layout false steps σ c left right ≠ .unfinished ∧
      ∀ τ d, unify layout true steps σ c left right = .unified τ d ↔
        unify layout false steps σ c left right = .unified τ d ∧ (τ.substitution d).Acyclic := by
  obtain ⟨hholds, horderly, hacyclic⟩ := h.wellFounded
  have hsteady : (σ.substitution c).Steady := ⟨hacyclic rfl, hvalues⟩
  have hverdict := verdict_unify hholds horderly.settles
  have hends : ∀ occursCheck, ∃ enough, ∀ steps ≥ enough,
      unify layout occursCheck steps σ c left right ≠ .unfinished ∧
      (σ.substitution c).unifyPairs layout occursCheck steps [] [(left, right)] ≠ .unfinished := by
    intro occursCheck
    obtain ⟨enough, result, hresult, hrun⟩ :=
      h.exists_unify_eq layout (fun _ : occursCheck = true => hacyclic rfl) left right
    refine ⟨enough, fun steps hsteps => ?_⟩
    rw [← hverdict, hrun steps hsteps]
    rcases hresult with ⟨τ, d, rfl⟩ | ⟨τ, rfl⟩ <;> exact ⟨nofun, nofun⟩
  obtain ⟨m, hchecked⟩ := hends true
  obtain ⟨n, hunchecked⟩ := hends false
  refine ⟨max m n, fun steps hsteps => ?_⟩
  obtain ⟨hend, hend'⟩ := hchecked steps ((le_max_left m n).trans hsteps)
  obtain ⟨hlast, hlast'⟩ := hunchecked steps ((le_max_right m n).trans hsteps)
  refine ⟨hend, hlast, fun τ d => ?_⟩
  have hagree := hsteady.unifyPairs_iff hleft hright hend' hlast' (τ.substitution d)
  rw [← hverdict, ← hverdict] at hagree
  constructor
  · intro hunify
    obtain ⟨hsame, hresult⟩ := hagree.1 (congrArg Unified.verdict hunify)
    exact ⟨unify_eq_of_verdict hholds horderly.settles hunify hsame, hresult⟩
  · rintro ⟨hunify, hresult⟩
    exact unify_eq_of_verdict hholds horderly.settles hunify
      (hagree.2 ⟨congrArg Unified.verdict hunify, hresult⟩)

/-- With `A` bound to `f(X)` and `B` to `f(Y)`, the unchecked mode skips the second of the two pairs
in `p(A, A)` and `p(B, B)`, and the checked one goes through it. Both bind `X` to `Y`. -/
theorem unify_modes_agree_repeated :
    let fx : Occurrence := .whole 0 (.apply "f" [.var ⟨"X", some 1⟩])
    let fy : Occurrence := .whole 0 (.apply "f" [.var ⟨"Y", some 3⟩])
    let a : Term := .var ⟨"A", some 0⟩
    let b : Term := .var ⟨"B", some 2⟩
    let σ : Store := ⟨#[⟨0, fx, 0⟩, ⟨2, fy, 1⟩]⟩
    let left : Occurrence := .whole 1 (.apply "p" [a, a])
    let right : Occurrence := .whole 2 (.apply "p" [b, b])
    let τ : Store := ⟨#[⟨0, fx, 0⟩, ⟨2, fy, 1⟩, ⟨1, ⟨0, 1, .var ⟨"Y", some 3⟩⟩, 2⟩]⟩
    Reached true σ ⟨2, 4⟩ ∧
      (∀ binding ∈ (σ.substitution ⟨2, 4⟩).bindings, binding.2.term.isStable) ∧
      left.term.isStable ∧ right.term.isStable ∧
      ∃ steps, unify .byTerm true steps σ ⟨2, 4⟩ left right = .unified τ ⟨3, 4⟩ ∧
        unify .byTerm false steps σ ⟨2, 4⟩ left right = .unified τ ⟨3, 4⟩ ∧
        (τ.substitution ⟨3, 4⟩).Acyclic := by
  intro fx fy a b σ left right τ
  have hreached : Reached true σ ⟨2, 4⟩ := by
    have hfirst : Reached true ⟨#[⟨0, fx, 0⟩]⟩ ⟨1, 4⟩ :=
      (Reached.empty .empty |>.allocate 4).unify .byTerm true id 1 (.whole 0 a) fx (by cbv)
    exact hfirst.unify .byTerm true id 1 (.whole 0 b) fy (by cbv)
  have hvalues : ∀ binding ∈ (σ.substitution ⟨2, 4⟩).bindings, binding.2.term.isStable := by
    have hbindings : (σ.substitution ⟨2, 4⟩).bindings = [(2, fy), (0, fx)] := by cbv
    rw [hbindings]
    decide
  have hleft : left.term.isStable := by decide
  have hright : right.term.isStable := by decide
  obtain ⟨enough, hends⟩ := unify_modes_agree .byTerm hreached hvalues hleft hright
  obtain ⟨_, _, hagree⟩ := hends (enough + 6) (Nat.le_add_right ..)
  have hchecked : unify .byTerm true (enough + 6) σ ⟨2, 4⟩ left right = .unified τ ⟨3, 4⟩ := by cbv
  exact ⟨hreached, hvalues, hleft, hright, enough + 6, hchecked, (hagree _ _).1 hchecked⟩

/-- The modes differ when the anonymous variable has a slot in a bound value. With `A` bound to
`f(_)`, where this variable has the slot of `X`, and `B` to `f(b)`, the arguments of
`p(A, X, A)` and `p(B, a, B)` are unified in turn. The first pair is solved since the anonymous
variable is passed over. Then `X` is bound to `a`. The checked mode goes through the first pair
again and finds that `a` and `b` differ, and the unchecked one skips it. -/
theorem unify_modes_differ :
    let x : Var := ⟨"X", some 1⟩
    let fx : Occurrence := .whole 0 (.apply "f" [.var ⟨"_", some 1⟩])
    let fb : Occurrence := .whole 0 (.apply "f" [.atom "b"])
    let a : Term := .var ⟨"A", some 0⟩
    let b : Term := .var ⟨"B", some 2⟩
    let σ : Store := ⟨#[⟨0, fx, 0⟩, ⟨2, fb, 1⟩]⟩
    let left : Occurrence := .whole 1 (.apply "p" [a, .var x, a])
    let right : Occurrence := .whole 2 (.apply "p" [b, .atom "a", b])
    let τ : Store := ⟨#[⟨0, fx, 0⟩, ⟨2, fb, 1⟩, ⟨1, ⟨2, 2, .atom "a"⟩, 2⟩]⟩
    Reached true σ ⟨2, 3⟩ ∧
      (∀ binding ∈ (σ.substitution ⟨2, 3⟩).bindings, binding.2.term.isNaNFree) ∧
      (left.term.isDefinite ∧ left.term.isStable) ∧ (right.term.isDefinite ∧ right.term.isStable) ∧
      (∀ steps ≥ 7, unify .byOccurrence true steps σ ⟨2, 3⟩ left right = .clash τ) ∧
      (∀ steps ≥ 7, unify .byOccurrence false steps σ ⟨2, 3⟩ left right = .unified τ ⟨3, 3⟩) ∧
      (τ.substitution ⟨3, 3⟩).Acyclic := by
  intro x fx fb a b σ left right τ
  have hreached : Reached true σ ⟨2, 3⟩ := by
    have hfirst : Reached true ⟨#[⟨0, fx, 0⟩]⟩ ⟨1, 3⟩ :=
      (Reached.empty .empty |>.allocate 3).unify .byOccurrence true id 1 (.whole 0 a) fx (by cbv)
    exact hfirst.unify .byOccurrence true id 1 (.whole 0 b) fb (by cbv)
  have hacyclic : (τ.substitution ⟨3, 3⟩).Acyclic := by
    have hbound : Reached true τ ⟨3, 3⟩ :=
      hreached.unify .byOccurrence true id 1 (.whole 1 (.var x)) ⟨2, 2, .atom "a"⟩ (by cbv)
    obtain ⟨_, _, hacyclic⟩ := hbound.wellFounded
    exact hacyclic rfl
  have hvalues : ∀ binding ∈ (σ.substitution ⟨2, 3⟩).bindings, binding.2.term.isNaNFree := by
    have hbindings : (σ.substitution ⟨2, 3⟩).bindings = [(2, fb), (0, fx)] := by cbv
    rw [hbindings]
    decide
  refine ⟨hreached, hvalues, by decide, by decide, fun steps hsteps => ?_, fun steps hsteps => ?_,
    hacyclic⟩
  · have hclash : unify .byOccurrence true 7 σ ⟨2, 3⟩ left right = .clash τ := by cbv
    refine (unifyPairs_mono hsteps ?_).trans hclash
    rw [← unifyAll, ← unify, hclash]
    exact Unified.noConfusion
  · have hunified : unify .byOccurrence false 7 σ ⟨2, 3⟩ left right = .unified τ ⟨3, 3⟩ := by
      with_unfolding_all rfl
    refine (unifyPairs_mono hsteps ?_).trans hunified
    rw [← unifyAll, ← unify, hunified]
    exact Unified.noConfusion

end Store

end ClauseResolution
