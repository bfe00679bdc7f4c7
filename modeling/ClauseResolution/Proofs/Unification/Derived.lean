import ClauseResolution.Clause.Renaming
import ClauseResolution.Proofs.Substitution.Composition
import ClauseResolution.Proofs.Unification.Reached

/-!
# Rebuilding terms in derived contexts

A context that is derived from another one has its bindings and more, since unification binds
free variables only. A term that was rebuilt in the earlier context may be rebuilt again in the
later one: the result is what the later context makes of the term itself. In particular nothing
is left to be replaced in a term that was rebuilt.
-/

namespace ClauseResolution

namespace Substitution

variable {s : Substitution} {layout : Layout}

/-- A binding that a pair calls for is one of a free slot, so the others keep their values. -/
theorem Treats.retains_bind {occursCheck : Bool} {entered : List (Occurrence × Occurrence)}
    {l r : Occurrence} {v : Var} {value : Occurrence} (h : s.Settles)
    (htreats : s.Treats layout occursCheck entered l r (.bind v value)) :
    s.Retains (s.bind v value) := by
  rw [bind]
  cases hindex : v.index with
  | none => exact .refl s
  | some slot => exact retains_extend ((htreats.bind_free h).2 slot hindex)

/-- A unification retains what it starts from. -/
theorem Settles.unifyPairs_retains {s' : Substitution} {occursCheck : Bool} {steps : Nat}
    {entered pending : List (Occurrence × Occurrence)} (h : s.Settles)
    (hunify : s.unifyPairs layout occursCheck steps entered pending = .unified s') :
    s'.Settles ∧ s.Retains s' := by
  refine unifyPairs_keeps (motive := fun s' => s'.Settles ∧ s.Retains s') ?_ ⟨h, .refl s⟩ hunify
  rintro s' entered l r v value ⟨hsettles, hretains⟩ htreats
  exact ⟨htreats.settles_bind hsettles, hretains.trans (htreats.retains_bind hsettles)⟩

end Substitution

namespace Store

variable {σ₀ σ τ : Store} {c₀ c d : Context}

/-- The context is derived from an earlier one by allocating slots, renaming clauses and
unifying. Other contexts may be extended in the meantime, also by unifications that clash. -/
inductive Derives (σ₀ : Store) (c₀ : Context) : Store → Context → Prop
  /-- The earlier context itself. -/
  | refl : Derives σ₀ c₀ σ₀ c₀
  /-- Slots are allocated. -/
  | allocate {σ : Store} {c : Context} (hc : Derives σ₀ c₀ σ c) (count : Nat) :
      Derives σ₀ c₀ σ (c.allocate count).1
  /-- A clause is renamed. -/
  | rename {σ : Store} {c : Context} (hc : Derives σ₀ c₀ σ c) (clause : Clause) :
      Derives σ₀ c₀ σ (clause.rename c).context
  /-- Two terms are unified. -/
  | unify {σ τ : Store} {c d : Context} (hc : Derives σ₀ c₀ σ c) (layout : Layout)
      (occursCheck : Bool) (steps : Nat) (left right : Occurrence)
      (hunify : ClauseResolution.unify layout occursCheck steps σ c left right = .unified τ d) :
      Derives σ₀ c₀ τ d
  /-- Bindings of other contexts are added to the store. -/
  | grow {σ τ : Store} {c : Context} (hc : Derives σ₀ c₀ σ c) (hgrows : σ.Grows τ) :
      Derives σ₀ c₀ τ c

/-- A derived context is one of the store, and retains the bindings of the earlier one. -/
theorem Derives.retains (h : Derives σ₀ c₀ τ d) (hc : σ₀.Holds c₀)
    (hsettles : (σ₀.substitution c₀).Settles) :
    τ.Holds d ∧ (τ.substitution d).Settles ∧
      (σ₀.substitution c₀).Retains (τ.substitution d) := by
  induction h with
  | refl => exact ⟨hc, hsettles, .refl _⟩
  | allocate _ count ih | rename _ clause ih =>
    obtain ⟨hholds, hends, hretains⟩ := ih
    exact ⟨hholds, hends.withTop _, hretains⟩
  | @unify σ τ c d _ layout occursCheck steps left right hunify ih =>
    obtain ⟨hholds, hends, hretains⟩ := ih
    obtain ⟨hd, hunified⟩ := unifyPairs_of_unify hholds hends hunify
    obtain ⟨hlater, hmore⟩ := hends.unifyPairs_retains hunified
    exact ⟨hd, hlater, hretains.trans hmore⟩
  | grow _ hgrows ih =>
    obtain ⟨hholds, hrest⟩ := ih
    rw [hgrows.agree.substitution_eq hholds] at hrest
    exact ⟨hholds.of_grows hgrows, hrest⟩

/-- Rebuilding composes with deriving. What an acyclic context makes of a term is made by any
acyclic context derived from it into what that one makes of the term itself, to the last stored
count. In the context itself nothing more is made of it, since none of its variables is bound. -/
theorem reify_derived (hc : σ.Holds c) (h : (σ.substitution c).Acyclic) (hderives : Derives σ c τ d)
    (h' : (τ.substitution d).Acyclic) (t : Term) :
    ∃ rebuilt later, σ.reify c t = some rebuilt ∧ τ.reify d t = some later ∧
      τ.reify d rebuilt = some later ∧ σ.reify c rebuilt = some rebuilt ∧
      ∀ v, .var v ∈ rebuilt.leaves → σ.isBound c v = false := by
  obtain ⟨_, _, hretains⟩ := hderives.retains hc h.settles
  refine ⟨_, _, reify_eq_solution h t, reify_eq_solution h' t, ?_, ?_, fun v hv => ?_⟩
  · rw [reify_eq_solution h', h.assign_solution_solution h' hretains]
  · rw [reify_eq_solution h, h.assign_solution_solution h (.refl _)]
  · have hfree := h.valueAt_of_mem_leaves hv
    rw [funext (valueAt_substitution σ c)] at hfree
    rw [isBound, valueOf, hfree, Option.isSome_none]

/-- With `X` bound to `f(Y)`, the term `g(X, Z)` is rebuilt to `g(f(Y), Z)`. After `Y` and `a`
were unified both become `g(f(a), Z)`. -/
theorem reify_derived_nested :
    let x : Var := ⟨"X", some 0⟩
    let y : Var := ⟨"Y", some 1⟩
    let z : Var := ⟨"Z", some 2⟩
    let earlier : Store := ⟨#[⟨0, .whole 0 (.apply "f" [.var y]), 0⟩]⟩
    let later : Store := ⟨#[⟨0, .whole 0 (.apply "f" [.var y]), 0⟩, ⟨1, .whole 0 (.atom "a"), 1⟩]⟩
    earlier.Holds ⟨1, 3⟩ ∧ (earlier.substitution ⟨1, 3⟩).Acyclic ∧
      Derives earlier ⟨1, 3⟩ later ⟨2, 3⟩ ∧ (later.substitution ⟨2, 3⟩).Acyclic ∧
      later.reify ⟨2, 3⟩ (.apply "g" [.apply "f" [.var y], .var z]) =
        later.reify ⟨2, 3⟩ (.apply "g" [.var x, .var z]) := by
  intro x y z earlier later
  have hearlier : Reached true earlier ⟨1, 3⟩ :=
    (Reached.empty .empty |>.allocate 3).unify .byTerm true id 1 (.whole 0 (.var x))
      (.whole 0 (.apply "f" [.var y])) (by cbv)
  have hunified : unify .byTerm true 1 earlier ⟨1, 3⟩ (.whole 0 (.var y)) (.whole 0 (.atom "a")) =
      .unified later ⟨2, 3⟩ := by cbv
  have hderives : Derives earlier ⟨1, 3⟩ later ⟨2, 3⟩ :=
    Derives.refl.unify .byTerm true 1 _ _ hunified
  have hacyclic := hearlier.wellFounded.2.2 rfl
  have hacyclic' := (hearlier.unify .byTerm true id 1 _ _ hunified).wellFounded.2.2 rfl
  have hholds : earlier.Holds ⟨1, 3⟩ := Nat.le_refl 1
  obtain ⟨rebuilt, last, hrebuilt, hlast, hsame, _⟩ := reify_derived hholds hacyclic hderives
    hacyclic' (.apply "g" [.var x, .var z])
  have horder : earlier.slotOrder ⟨1, 3⟩ 1 [] [] [.visit (.apply "g" [.var x, .var z])] =
      some [0] := by cbv
  have heq : earlier.reify ⟨1, 3⟩ (.apply "g" [.var x, .var z]) =
      some (.apply "g" [.apply "f" [.var y], .var z]) := by
    rw [reify, horder]
    with_unfolding_all rfl
  rw [heq] at hrebuilt
  cases hrebuilt
  exact ⟨hholds, hacyclic, hderives, hacyclic', hsame.trans hlast.symm⟩

end Store

end ClauseResolution
