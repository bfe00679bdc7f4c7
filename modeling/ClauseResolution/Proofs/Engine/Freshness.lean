import ClauseResolution.Proofs.Engine.Soundness
import ClauseResolution.Proofs.Search.Freshness

/-!
# Clauses are renamed apart

In every state that a search reaches, whether bindings are reclaimed or not, nothing that
the current context or a choice point can still reach lies at the top of its context or
beyond. So the variables that a clause is given there are new to that branch, although
their slots may have been in use on another one.
-/

namespace ClauseResolution

open Relation (ReflTransGen)

namespace Store

variable {σ : Store} {c : Context} {frames : List Frame}

/-- The variable stands in one of the frames, or in a binding of the context. -/
def Mentions (σ : Store) (c : Context) (frames : List Frame) (v : Var) : Prop :=
  (∃ frame ∈ frames, ∃ t ∈ frame.terms, .var v ∈ t.leaves) ∨
    ∃ binding ∈ σ.chain c.stamp, v.index = some binding.1 ∨ .var v ∈ binding.2.term.leaves

/-- The goals that remain in a context, and the bindings of the context, lie below its
top, and clauses renamed in it have variables of their own. -/
structure StandardizedApart (σ : Store) (c : Context) (frames : List Frame) : Prop where
  /-- A variable in a goal is anonymous or has a slot below the top. -/
  goals : ∀ frame ∈ frames, ∀ t ∈ frame.terms, t.Scoped c.top
  /-- So is a variable in the value of a binding. -/
  values : ∀ binding ∈ σ.chain c.stamp, binding.2.term.Scoped c.top
  /-- A slot that is bound is below the top. -/
  slots : ∀ binding ∈ σ.chain c.stamp, binding.1 < c.top
  /-- No slot is bound twice. -/
  nodup : ((σ.chain c.stamp).map Prod.fst).Nodup
  /-- A variable of a renamed clause is anonymous, or another than all these. -/
  fresh : ∀ clause : Clause, clause.IsBuilt → ∀ v,
    .var v ∈ (clause.rename c).head.term.leaves ∨ .var v ∈ (clause.rename c).body.term.leaves →
      v = .anonymous ∨ ∀ w, σ.Mentions c frames w → v.same w = false

/-- Where nothing lies beyond the top, a variable with a slot from the top on is new. -/
theorem not_same_of_mentions (h : Encloses (σ.substitution c) frames) {v w : Var} {slot : Nat}
    (hle : c.top ≤ slot) (hv : v.index = some slot) (hw : σ.Mentions c frames w) :
    v.same w = false := by
  rw [← Bool.not_eq_true, Var.same_iff_index hv]
  intro hindex
  have hscope : (Term.var w).Scoped c.top := by
    rcases hw with ⟨frame, hframe, t, ht, hleaf⟩ | ⟨⟨bound, value⟩, hbinding, hslot | hleaf⟩
    · exact Term.scoped_var.2 (h.scope frame hframe t ht w hleaf)
    · exact Term.scoped_var.2 (Or.inr ⟨bound, h.confines.slot_lt bound value hbinding, hslot⟩)
    · exact Term.scoped_var.2 (h.confines.value bound value hbinding w hleaf)
  have hlt := hscope.slot_lt (Term.mem_slots_var.2 hindex)
  omega

/-- Where nothing lies beyond the top, clauses are renamed apart. -/
theorem standardizedApart_of_encloses (h : Encloses (σ.substitution c) frames) :
    σ.StandardizedApart c frames where
  goals := h.scope
  values binding hmem := h.confines.value binding.1 binding.2 hmem
  slots binding hmem := h.confines.slot_lt binding.1 binding.2 hmem
  nodup := h.confines.nodup
  fresh clause hbuilt v hv := by
    have hfresh : v = .anonymous ∨
        ∃ slot, c.top ≤ slot ∧ slot < c.top + clause.varCount ∧ v.index = some slot := by
      rcases hv with hhead | hbody
      · exact hbuilt.placed.fresh_head c v hhead
      · exact hbuilt.placed.fresh_body c v hbody
    rcases hfresh with hanonymous | ⟨slot, hle, _, hslot⟩
    · exact Or.inl hanonymous
    · exact Or.inr fun w hw => not_same_of_mentions h hle hslot hw

end Store

/-- Clauses are renamed apart in the current context, and in that of each choice point. -/
structure Search.StandardizedApart (state : Search) : Prop where
  /-- They are in the current context. -/
  current : state.store.StandardizedApart state.context state.continuation
  /-- They are where the search goes back to. -/
  choices : ∀ point ∈ state.choices,
    state.store.StandardizedApart point.context point.alternative.frames

/-- In a closed search clauses are renamed apart. -/
theorem Search.standardizedApart_of_closed {state : Search} (h : state.view.Closed) :
    state.StandardizedApart where
  current := Store.standardizedApart_of_encloses h.current
  choices point hpoint := by
    have hmem : point.branch state.store ∈ state.view.branches :=
      List.mem_map_of_mem (List.mem_reverse.2 (Array.mem_toList_iff.2 hpoint))
    exact Store.standardizedApart_of_encloses (h.branches _ hmem).encloses

section Run

variable {α : Type} {config : Config} {index : ClauseIndex} {vars : List Var}
  {listener : Listener α}

/-- One turn leads from a search under way to another. -/
def Search.Follows (config : Config) (index : ClauseIndex) (vars : List Var)
    (listener : Listener α) (p q : Progress α) : Prop :=
  ∃ steps, turn config index vars listener steps p = .going q

/-- A search under way has a sound state that reaches nothing beyond a top, and all clauses
were made from terms. -/
structure Progress.Closed (index : ClauseIndex) (p : Progress α) : Prop where
  /-- The search is sound. -/
  sound : p.state.Sound
  /-- Nothing lies beyond a top. -/
  view : p.state.view.Closed
  /-- The clauses were made from terms. -/
  built : index.Within p.environment.providers {clause | clause.IsBuilt}

/-- A turn goes on with nothing beyond a top, or ends. -/
def Turn.Closed (index : ClauseIndex) : Turn α → Prop
  | .going p => p.Closed index
  | .ended _ => True

/-- Going back leaves nothing beyond a top. -/
theorem Search.retry_closed {steps : Nat} {p : Progress α} (hsound : p.state.Sound)
    (hbranches : ∀ branch ∈ p.state.view.branches, branch.Closed)
    (hbuilt : index.Within p.environment.providers {clause | clause.IsBuilt}) :
    (retry config steps p).Closed index := by
  refine retry_cases hsound (fun state hstate hback => ?_) (fun _ _ => trivial) trivial
  exact ⟨hstate, Exploration.backtrack_closed hbranches hback, hbuilt⟩

/-- A turn leaves nothing beyond a top. -/
theorem Search.turn_closed {steps : Nat}
    (hlistener : ∀ solution env value, index.Within env.providers {clause | clause.IsBuilt} →
      index.Within (listener solution env value).2.1.providers {clause | clause.IsBuilt})
    {p : Progress α} (h : p.Closed index) :
    (turn config index vars listener steps p).Closed index := by
  obtain ⟨hsound, hview, hbuilt⟩ := h
  have hstage : Stage.Closed
      (p.state.view.advance config (index.matching p.environment.providers) steps) :=
    Exploration.advance_closed (fun key clause hmem => (hbuilt key clause hmem).placed) hview
  refine turn_cases hsound (fun _ => trivial) trivial ?proceed ?backtrack
    (fun _ _ _ _ _ _ => trivial) ?continued
  case proceed =>
    intro state hstate hmove
    rw [hmove] at hstage
    exact ⟨hstate, hstage, hbuilt⟩
  case backtrack =>
    intro state hstate hmove
    rw [hmove] at hstage
    exact retry_closed hstate hstage.branches hbuilt
  case continued =>
    intro state env value hstate hmove hreply
    rw [hmove] at hstage
    have hbuilt' := hlistener (state.solution vars) _ p.value hbuilt
    rw [hreply] at hbuilt'
    exact retry_closed hstate hstage.branches hbuilt'

/-- So does every step from turn to turn. -/
theorem Search.Follows.closed
    (hlistener : ∀ solution env value, index.Within env.providers {clause | clause.IsBuilt} →
      index.Within (listener solution env value).2.1.providers {clause | clause.IsBuilt})
    {p q : Progress α} (hfollows : Follows config index vars listener p q)
    (h : p.Closed index) : q.Closed index := by
  obtain ⟨steps, hturn⟩ := hfollows
  have hafter : (turn config index vars listener steps p).Closed index :=
    turn_closed hlistener h
  rwa [hturn] at hafter

end Run

namespace Engine

variable {α : Type}

/-- The search that is under way when a goal is about to be solved. -/
def begin (engine : Engine) (goal : Term) (value : α) : Progress α :=
  ⟨0, Search.start goal.normalize, { engine.environment with interrupted := false }, value⟩

/-- In every state that is reached when a goal is solved, clauses are renamed apart: in the
current context from the goals that remain, and in the context of each choice point from
the goals saved there. All clauses were made from terms, and the listener adds no others. -/
theorem standardizedApart (engine : Engine) (goal : Term) (listener : Listener α) (value : α)
    (hengine : engine.index.Within engine.environment.providers {clause | clause.IsBuilt})
    (hlistener : ∀ solution env value,
      engine.index.Within env.providers {clause | clause.IsBuilt} →
        engine.index.Within (listener solution env value).2.1.providers {clause | clause.IsBuilt})
    {p : Progress α}
    (hreached : ReflTransGen
      (Search.Follows engine.config engine.index goal.normalize.vars listener)
      (engine.begin goal value) p) :
    p.state.StandardizedApart := by
  suffices hclosed : p.Closed engine.index from Search.standardizedApart_of_closed hclosed.view
  induction hreached with
  | refl =>
    refine ⟨Search.sound_start _, ?_, hengine⟩
    rw [begin, Search.view_start]
    exact Exploration.start_closed goal
  | tail _ hfollows ih => exact hfollows.closed hlistener ih

/-- When `p(Z)` is solved by `p(X) :- q(X)`, the rule gets the slot after that of `Z`, and
after the turn the next slot is the one to be given out. -/
theorem standardizedApart_rule :
    ∃ p, Search.Follows small.config small.index
        (Term.apply "p" [.var ⟨"Z", none⟩]).normalize.vars first
        (small.begin (.apply "p" [.var ⟨"Z", none⟩]) ()) p ∧
      p.state.context.top = 2 ∧ p.state.StandardizedApart := by
  have htop : (match Search.turn small.config small.index
      (Term.apply "p" [.var ⟨"Z", none⟩]).normalize.vars first 8
      (small.begin (.apply "p" [.var ⟨"Z", none⟩]) ()) with
    | .going p => p.state.context.top
    | .ended _ => 0) = 2 := by cbv
  cases hturn : Search.turn small.config small.index
      (Term.apply "p" [.var ⟨"Z", none⟩]).normalize.vars first 8
      (small.begin (.apply "p" [.var ⟨"Z", none⟩]) ()) with
  | ended report => simp [hturn] at htop
  | going p =>
    rw [hturn] at htop
    refine ⟨p, ⟨8, hturn⟩, htop, ?_⟩
    refine standardizedApart small _ first () ?_ (fun _ _ _ h => h) (.single ⟨8, hturn⟩)
    exact fun key clause hclause => (isClean_small (mem_small.1 hclause)).isBuilt

end Engine

end ClauseResolution
