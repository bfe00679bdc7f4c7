import ClauseResolution.Proofs.Unification.Solved

/-!
# Outcomes of unification with the occurs check

With the occurs check a unification goes through the arguments of a pair before it goes on with the
others, and no pair is skipped because it was met before. So the walk over some pairs has an outcome
of its own, whatever is pending behind them: a substitution in which they are solved, or a clash.
Going through solved pairs comes back to the substitution itself.
-/

namespace ClauseResolution.Substitution

variable {s s' : Substitution} {layout : Layout} {l r : Occurrence} {result : Option Substitution}
  {entered front : List (Occurrence × Occurrence)}

/-- Where going through the pairs with the occurs check ends, if it does not clash. -/
inductive Outcome (layout : Layout) :
    Substitution → List (Occurrence × Occurrence) → Option Substitution → Prop
  /-- There is nothing to go through. -/
  | nil {s : Substitution} : Outcome layout s [] (some s)
  /-- The first pair is skipped. -/
  | skip {s : Substitution} {l r : Occurrence} {rest : List (Occurrence × Occurrence)}
      {result : Option Substitution} (hstep : s.pairStep layout true [] l r = .skip)
      (hrest : Outcome layout s rest result) : Outcome layout s ((l, r) :: rest) result
  /-- The first pair is refused. -/
  | clash {s : Substitution} {l r : Occurrence} {rest : List (Occurrence × Occurrence)}
      (hstep : s.pairStep layout true [] l r = .clash) : Outcome layout s ((l, r) :: rest) none
  /-- The first pair binds a variable. -/
  | bind {s : Substitution} {l r value : Occurrence} {v : Var}
      {rest : List (Occurrence × Occurrence)} {result : Option Substitution}
      (hstep : s.pairStep layout true [] l r = .bind v value)
      (hrest : Outcome layout (s.bind v value) rest result) :
      Outcome layout s ((l, r) :: rest) result
  /-- The arguments of the first pair are gone through before the other pairs. -/
  | descend {s s₁ : Substitution} {l r a b : Occurrence} {rest : List (Occurrence × Occurrence)}
      {result : Option Substitution} (hstep : s.pairStep layout true [] l r = .descend a b false)
      (hargs : Outcome layout s (a.args.zip b.args) (some s₁))
      (hrest : Outcome layout s₁ rest result) :
      Outcome layout s ((l, r) :: rest) result
  /-- The arguments of the first pair clash. -/
  | fail {s : Substitution} {l r a b : Occurrence} {rest : List (Occurrence × Occurrence)}
      (hstep : s.pairStep layout true [] l r = .descend a b false)
      (hargs : Outcome layout s (a.args.zip b.args) none) : Outcome layout s ((l, r) :: rest) none

/-- Compound terms are gone through where the sides end, and remembered without the occurs check
when one of them was reached through a binding. -/
theorem sides_of_descend {occursCheck : Bool} {a b : Occurrence} {remember : Bool}
    (hstep : s.pairStep layout occursCheck entered l r = .descend a b remember) :
    a = s.deref l ∧ b = s.deref r ∧ remember = (!occursCheck && (l.isVar || r.isVar)) := by
  have htreats := s.treats_pairStep layout occursCheck entered l r
  rw [hstep] at htreats
  cases htreats with
  | descend _ _ _ hremember => exact ⟨rfl, rfl, hremember⟩

/-- A run with the occurs check that ends goes through the first pairs, and clashes there or goes
on with the others. -/
theorem exists_outcome {steps : Nat} (front back : List (Occurrence × Occurrence))
    (h : s.unifyPairs layout true steps [] (front ++ back) ≠ .unfinished) :
    (Outcome layout s front none ∧ s.unifyPairs layout true steps [] (front ++ back) = .clash) ∨
      ∃ s' left, left ≤ steps ∧ Outcome layout s front (some s') ∧
        s.unifyPairs layout true steps [] (front ++ back) =
          s'.unifyPairs layout true left [] back := by
  induction steps using Nat.strongRecOn generalizing s front back with
  | ind steps ih =>
    cases front with
    | nil => exact Or.inr ⟨s, steps, le_rfl, .nil, rfl⟩
    | cons pair rest =>
      obtain ⟨l, r⟩ := pair
      cases steps with
      | zero => exact absurd rfl h
      | succ steps =>
        have hlt := Nat.lt_succ_self steps
        rw [List.cons_append, unifyPairs] at h ⊢
        cases hstep : s.pairStep layout true [] l r with
        | clash => exact Or.inl ⟨.clash hstep, rfl⟩
        | skip =>
          simp only [hstep] at h ⊢
          rcases ih steps hlt _ _ h with ⟨hrest, hrun⟩ | ⟨s', left, hle, hrest, hrun⟩
          · exact Or.inl ⟨.skip hstep hrest, hrun⟩
          · exact Or.inr ⟨s', left, by omega, .skip hstep hrest, hrun⟩
        | bind v value =>
          simp only [hstep] at h ⊢
          rcases ih steps hlt _ _ h with ⟨hrest, hrun⟩ | ⟨s', left, hle, hrest, hrun⟩
          · exact Or.inl ⟨.bind hstep hrest, hrun⟩
          · exact Or.inr ⟨s', left, by omega, .bind hstep hrest, hrun⟩
        | descend a b remember =>
          obtain ⟨_, _, rfl⟩ := sides_of_descend hstep
          simp only [hstep, Bool.not_true, Bool.false_and, Bool.false_eq_true, if_false] at h ⊢
          rcases ih steps hlt _ _ h with ⟨hargs, hrun⟩ | ⟨s₁, left, hle, hargs, hrun⟩
          · exact Or.inl ⟨.fail hstep hargs, hrun⟩
          · rw [hrun] at h ⊢
            rcases ih left (by omega) _ _ h with ⟨hrest, hrun'⟩ | ⟨s', left', hle', hrest, hrun'⟩
            · exact Or.inl ⟨.descend hstep hargs hrest, hrun'⟩
            · exact Or.inr ⟨s', left', by omega, .descend hstep hargs hrest, hrun'⟩

/-- What going through pairs with the occurs check comes to retains the bindings, and the pairs are
solved in it. -/
theorem Outcome.solved (h : Outcome layout s front (some s')) (hs : s.Steady)
    (hfront : ∀ p ∈ front, p.1.term.isStable ∧ p.2.term.isStable) :
    s'.Steady ∧ s.Retains s' ∧ ∀ p ∈ front, s'.Solved p.1 p.2 := by
  generalize hresult : some s' = result at h
  induction h generalizing s' with
  | nil =>
    cases hresult
    exact ⟨hs, .refl _, by simp⟩
  | @skip s l r rest result hstep hrest ih =>
    obtain ⟨⟨hl, hr⟩, hstable⟩ := List.forall_mem_cons.1 hfront
    obtain ⟨hs', hretains, hsolved⟩ := ih hs hstable hresult
    exact ⟨hs', hretains, List.forall_mem_cons.2
      ⟨(hs.solved_of_skip hl hstep).retains hretains hs hs' hl hr, hsolved⟩⟩
  | clash | fail => cases hresult
  | @bind s l r value v rest result hstep hrest ih =>
    obtain ⟨⟨hl, hr⟩, hstable⟩ := List.forall_mem_cons.1 hfront
    have htreats := s.treats_pairStep layout true [] l r
    rw [hstep] at htreats
    have hbind := hs.bind hl hr htreats
    obtain ⟨hs', hretains, hsolved⟩ := ih hbind hstable hresult
    exact ⟨hs', (htreats.retains_bind hs.acyclic.settles).trans hretains, List.forall_mem_cons.2
      ⟨(hs.solved_bind hl hr hstep).retains hretains hbind hs' hl hr, hsolved⟩⟩
  | @descend s s₁ l r a b rest result hstep hargs hrest ihargs ihrest =>
    obtain ⟨⟨hl, hr⟩, hstable⟩ := List.forall_mem_cons.1 hfront
    obtain ⟨rfl, rfl, _⟩ := sides_of_descend hstep
    obtain ⟨hs₁, hretains₁, hsolved₁⟩ := ihargs hs (hs.isStable_args hl hr) rfl
    obtain ⟨hs', hretains, hsolved⟩ := ihrest hs₁ hstable hresult
    have hpair := hretains₁.solved_of_descend hs₁.acyclic.settles hstep hsolved₁
    exact ⟨hs', hretains₁.trans hretains, List.forall_mem_cons.2
      ⟨hpair.retains hretains hs₁ hs' hl hr, hsolved⟩⟩

/-- Going through solved pairs binds nothing. -/
theorem Outcome.eq_of_solved (h : Outcome layout s front result)
    (hsolved : ∀ p ∈ front, s.Solved p.1 p.2) : result = some s := by
  induction h with
  | nil => rfl
  | skip hstep hrest ih => exact ih (List.forall_mem_cons.1 hsolved).2
  | clash hstep =>
    have hpair := (List.forall_mem_cons.1 hsolved).1.step layout
    rw [hstep] at hpair
    exact hpair.elim
  | bind hstep hrest ih =>
    have hpair := (List.forall_mem_cons.1 hsolved).1.step layout
    rw [hstep] at hpair
    rw [Substitution.bind, hpair] at ih
    exact ih (List.forall_mem_cons.1 hsolved).2
  | descend hstep hargs hrest ihargs ihrest =>
    have hpair := (List.forall_mem_cons.1 hsolved).1.step layout
    rw [hstep] at hpair
    cases ihargs hpair
    exact ihrest (List.forall_mem_cons.1 hsolved).2
  | fail hstep hargs ih =>
    have hpair := (List.forall_mem_cons.1 hsolved).1.step layout
    rw [hstep] at hpair
    cases ih hpair

end ClauseResolution.Substitution
