import ClauseResolution.Proofs.Search.Exploration

/-!
# A search is an exploration kept in a store

The view of a search replaces every context by the substitution it denotes. A search is
sound when its contexts belong to the store and the marks of its choice points do not
decrease from the oldest to the newest, each of them at or above the stamp of its
context. Then no binding that is dropped lies on a chain that is still needed, whether
bindings are reclaimed or not. Every step of a sound search leads to a sound search, and
its view is the step of the exploration.
-/

namespace ClauseResolution

namespace Store

variable {σ τ υ : Store} {c : Context} {size mark : Nat} {points : List ChoicePoint}

/-- Another store has the entries of this one below a mark. -/
structure Keeps (σ τ : Store) (mark : Nat) : Prop where
  /-- The entries below the mark are the same. -/
  agree : σ.AgreeBelow τ mark
  /-- The mark is not beyond the end. -/
  le : mark ≤ τ.size

/-- A store keeps its entries below a mark that it reaches. -/
theorem Keeps.refl (h : mark ≤ σ.size) : σ.Keeps σ mark := ⟨.refl σ mark, h⟩

/-- A store that grows keeps all its entries. -/
theorem Grows.keeps (h : σ.Grows τ) : σ.Keeps τ σ.size := ⟨h.agree, h.size_le⟩

/-- Adding to a store that keeps the entries keeps them. -/
theorem Keeps.trans_grows (h : σ.Keeps τ mark) (h' : τ.Grows υ) : σ.Keeps υ mark :=
  ⟨h.agree.trans (h'.agree.mono h.le), h.le.trans h'.size_le⟩

/-- Reclaiming from a mark on keeps the entries below the mark. -/
theorem Keeps.reclaim (h : σ.Keeps τ mark) (config : Config) :
    σ.Keeps (config.reclaim mark τ) mark := by
  rw [Config.reclaim]
  split
  · refine ⟨h.agree.trans (τ.agreeBelow_truncate mark), ?_⟩
    rw [size_truncate]
    exact le_min (le_refl mark) h.le
  · exact h

/-- A context at or below the mark keeps its meaning. -/
theorem Keeps.substitution_eq (h : σ.Keeps τ mark) (hstamp : c.stamp ≤ mark) :
    τ.substitution c = σ.substitution c := (h.agree.substitution_eq hstamp).symm

/-- The choice points, the newest first, have marks that do not increase and lie at or
above the stamps, and following variables ends in their contexts. -/
def Supports (σ : Store) : Nat → List ChoicePoint → Prop
  | _, [] => True
  | size, point :: points => point.mark ≤ size ∧ point.context.stamp ≤ point.mark ∧
    (σ.substitution point.context).Settles ∧ σ.Supports point.mark points

/-- Choice points that are supported below a mark are supported below every larger one. -/
theorem Supports.mono (h : σ.Supports mark points) (hle : mark ≤ size) :
    σ.Supports size points := by
  cases points with
  | nil => trivial
  | cons point points => exact ⟨h.1.trans hle, h.2⟩

/-- Choice points below the newest ones are supported as well. -/
theorem Supports.drop (h : σ.Supports size points) (count : Nat) :
    σ.Supports size (points.drop count) := by
  induction count generalizing size points with
  | zero => exact h
  | succ count ih =>
    cases points with
    | nil => trivial
    | cons point points =>
      obtain ⟨hmark, _, _, hrest⟩ := h
      exact ih (hrest.mono hmark)

/-- A store that keeps the entries below the marks supports the choice points. -/
theorem Supports.of_agreeBelow (h : σ.Supports size points) (hagree : σ.AgreeBelow τ size) :
    τ.Supports size points := by
  induction points generalizing size with
  | nil => trivial
  | cons point points ih =>
    obtain ⟨hmark, hstamp, hsettles, hrest⟩ := h
    have hbelow := hagree.mono hmark
    refine ⟨hmark, hstamp, ?_, ih hrest hbelow⟩
    rwa [← hbelow.substitution_eq hstamp]

end Store

/-- The branch a choice point leaves. -/
def ChoicePoint.branch (σ : Store) (point : ChoicePoint) : Branch :=
  ⟨σ.substitution point.context, point.alternative⟩

/-- A store that keeps the entries below the marks leaves the same branches. -/
theorem Store.Supports.map_branch_eq {σ τ : Store} {size : Nat} {points : List ChoicePoint}
    (h : σ.Supports size points) (hagree : σ.AgreeBelow τ size) :
    points.map (ChoicePoint.branch τ) = points.map (ChoicePoint.branch σ) := by
  induction points generalizing size with
  | nil => rfl
  | cons point points ih =>
    obtain ⟨hmark, hstamp, _, hrest⟩ := h
    have hbelow := hagree.mono hmark
    rw [List.map_cons, List.map_cons, ih hrest hbelow, ChoicePoint.branch, ChoicePoint.branch,
      hbelow.substitution_eq hstamp]

namespace Search

/-- The choice points, the newest first. -/
def points (state : Search) : List ChoicePoint := state.choices.toList.reverse

/-- A search has as many points to return to as choices. -/
theorem length_points (state : Search) : state.points.length = state.choices.size := by
  simp [points]

/-- A cut drops the newest choice points, down to a height. -/
theorem points_cut (height : Nat) (state : Search) :
    (state.cut height).points = state.points.drop (state.points.length - height) := by
  simp [points, cut, List.reverse_take]

/-- A choice that is pushed is the newest choice point. -/
theorem points_push (state : Search) (point : ChoicePoint) :
    points { state with choices := state.choices.push point } = point :: state.points := by
  simp [points]

/-- The search apart from the store. -/
def view (state : Search) : Exploration :=
  ⟨state.store.substitution state.context, state.continuation,
    state.points.map (ChoicePoint.branch state.store), state.inferences⟩

/-- All contexts belong to the store, and no mark is below a chain that is needed. -/
structure Sound (state : Search) : Prop where
  /-- The current context belongs to the store. -/
  holds : state.store.Holds state.context
  /-- Following variables ends in the current context. -/
  settles : (state.store.substitution state.context).Settles
  /-- The choice points lie below their marks. -/
  supports : state.store.Supports state.store.size state.points

/-- The view of a search has as many branches as the search has choices. -/
@[simp] theorem length_branches_view (state : Search) :
    state.view.branches.length = state.choices.size := by
  simp [view, points]

/-- The search about to run a goal is sound. -/
theorem sound_start (query : Normalized) : (start query).Sound where
  holds := Nat.zero_le _
  settles := by
    apply Substitution.settles_of_bindings_eq_nil
    exact Store.chain.eq_1 _
  supports := trivial

/-- The view of a search at its start is an exploration at its start. -/
theorem view_start (query : Normalized) : (start query).view = .start query := by
  have hchain : Store.empty.chain 0 = [] := Store.chain.eq_1 _
  simp [view, points, start, Exploration.start, Store.substitution, Context.allocate,
    Context.empty, hchain]

/-- Dropping choice points drops branches. -/
theorem view_cut (height : Nat) (state : Search) :
    (state.cut height).view = state.view.cut height := by
  simp [view, points, cut, Exploration.cut, List.reverse_take]

/-- A search stays sound after a cut. -/
theorem Sound.cut {state : Search} (h : state.Sound) (height : Nat) : (state.cut height).Sound where
  holds := h.holds
  settles := h.settles
  supports := by
    rw [points_cut]
    exact h.supports.drop _

/-- Going on with other frames is going on with them in the view. -/
theorem view_continueWith (continuation : List Frame) (state : Search) :
    (state.continueWith continuation).view = state.view.continueWith continuation := rfl

/-- A sound search stays sound when it goes on with other frames. -/
theorem Sound.continueWith {state : Search} (h : state.Sound) (continuation : List Frame) :
    (state.continueWith continuation).Sound := ⟨h.holds, h.settles, h.supports⟩

/-- A new choice point is a new branch. -/
theorem view_offer (goal : Occurrence) (barrier depth : Nat) (state : Search) :
    (state.offer goal barrier depth).view = state.view.offer goal barrier depth := by
  simp [view, points, offer, Exploration.offer, ChoicePoint.branch]

/-- A sound search stays sound when a branch is offered. -/
theorem Sound.offer {state : Search} (h : state.Sound) (goal : Occurrence) (barrier depth : Nat) :
    (state.offer goal barrier depth).Sound where
  holds := h.holds
  settles := h.settles
  supports := by
    rw [Search.offer, points_push]
    exact ⟨le_refl _, h.holds, h.settles, h.supports⟩

end Search

/-- A step of a search apart from the store. -/
def Move.view : Move → Stage
  | .proceed state => .proceed state.view
  | .backtrack state => .backtrack state.view
  | .solution state => .solution state.view
  | .error cause => .error cause
  | .unfinished => .unfinished

/-- The state a step leads to is sound. -/
def Move.Sound : Move → Prop
  | .proceed state | .backtrack state | .solution state => state.Sound
  | .error _ | .unfinished => True

/-- A look for a matching clause apart from the store. -/
def Entry.view : Entry → Stage
  | .entered state => .proceed state.view
  | .missed state => .backtrack state.view
  | .unfinished => .unfinished

/-- The state after a look for a matching clause is sound. -/
def Entry.Sound : Entry → Prop
  | .entered state | .missed state => state.Sound
  | .unfinished => True

/-- The clause found on a store is the one found on the substitution; the entries below
the mark are kept. -/
def ClauseMatch.Realizes (σ : Store) (mark : Nat) : ClauseMatch → Hit → Prop
  | .found τ d body isFact untried, .found s body' isFact' untried' =>
    σ.Keeps τ mark ∧ τ.Holds d ∧ τ.substitution d = s ∧ s.Settles ∧
      body = body' ∧ isFact = isFact' ∧ untried = untried'
  | .missing τ, .missing => σ.Keeps τ mark
  | .unfinished, .unfinished => True
  | _, _ => False

/-- What going back leads to, apart from the store. -/
def Search.Resumption.view : Search.Resumption → Exploration.Return
  | .resumed state => .resumed state.view
  | .exhausted state => .exhausted state.inferences
  | .unfinished => .unfinished

/-- The state that is taken up is sound. -/
def Search.Resumption.Sound : Search.Resumption → Prop
  | .resumed state | .exhausted state => state.Sound
  | .unfinished => True

section Steps

variable (config : Config) (clausesOf : String → List Clause) (steps : Nat)

/-- Unifying a call with a head on a store is unifying it on the substitution. -/
theorem Call.unifyHead_realizes {σ : Store} {c : Context} (hc : σ.Holds c)
    (h : (σ.substitution c).Settles) (call : Call) (head : Occurrence) :
    (call.unifyHead config steps σ c head).Realizes σ
      ((σ.substitution c).unifyHead config steps call head) := by
  rw [unifyHead, Substitution.unifyHead]
  cases head.term with
  | compound functor args varCount =>
    by_cases hfits : call.functor = functor ∧ call.args.length = args.length
    · simp only [if_pos hfits]
      exact Store.unifyPairs_realizes hc h _ _ _ _ _
    · simp only [if_neg hfits]
      exact Store.Grows.refl σ
  | atom | number | var => exact Store.Grows.refl σ

/-- The first match on a store is the first match on the substitution. -/
theorem firstMatch_realizes {σ τ : Store} {c : Context} {mark : Nat} (hkeeps : σ.Keeps τ mark)
    (hstamp : c.stamp ≤ mark) (h : (σ.substitution c).Settles) (call : Call)
    (clauses : List Clause) :
    (firstMatch config steps c mark call τ clauses).Realizes σ mark
      ((σ.substitution c).firstMatch config steps call clauses) := by
  induction clauses generalizing τ with
  | nil => exact hkeeps
  | cons clause clauses ih =>
    rw [firstMatch, Substitution.firstMatch]
    have hfresh : τ.substitution (clause.rename c).context =
        (σ.substitution c).allocate clause.varCount := by
      rw [← hkeeps.substitution_eq hstamp]
      rfl
    have hholds : τ.Holds (clause.rename c).context := hstamp.trans hkeeps.le
    have hhead := Call.unifyHead_realizes config steps hholds
      (by rw [hfresh]; exact h.withTop _) call (clause.rename c).head
    rw [hfresh] at hhead
    change Unified.Realizes τ _ (((σ.substitution c).allocate clause.varCount).unifyHead config
      steps call (clause.rename (σ.substitution c).context).head) at hhead
    cases hv : ((σ.substitution c).allocate clause.varCount).unifyHead config steps call
        (clause.rename (σ.substitution c).context).head with
    | unified s =>
      rw [hv] at hhead
      obtain ⟨τ', d, hu, hgrows, hd, hsubst, hsettles⟩ := hhead.exists_unified
      rw [hu]
      exact ⟨hkeeps.trans_grows hgrows, hd, hsubst, hsettles, rfl, rfl, rfl⟩
    | clash =>
      rw [hv] at hhead
      obtain ⟨τ', hu, hgrows⟩ := hhead.exists_clash
      rw [hu]
      exact ih ((hkeeps.trans_grows hgrows).reclaim config)
    | unfinished =>
      rw [hv] at hhead
      rw [hhead.eq_unfinished]
      trivial

namespace Search

/-- Entering a clause is entering it in the view. -/
theorem enter_view {state : Search} (h : state.Sound) (call : Call) (clauses : List Clause)
    (depth : Nat) (next : List Frame) :
    (enter config steps call clauses depth next state).Sound ∧
      (enter config steps call clauses depth next state).view =
        state.view.enter config steps call clauses depth next := by
  obtain ⟨σ, c, continuation, choices, inferences⟩ := state
  obtain ⟨hholds, hsettles, hsupports⟩ := h
  have hmatch := firstMatch_realizes config steps (Store.Keeps.refl (le_refl σ.size)) hholds
    hsettles call clauses
  rw [enter, Exploration.enter]
  dsimp only [view] at hholds hsettles hsupports ⊢
  cases hu : firstMatch config steps c σ.size call σ clauses <;>
    cases hv : (σ.substitution c).firstMatch config steps call clauses <;>
    rw [hu, hv] at hmatch <;> try exact hmatch.elim
  · next τ d body isFact untried s body' isFact' untried' =>
    obtain ⟨hkeeps, hd, rfl, hs, rfl, rfl, rfl⟩ := hmatch
    have hold := (hsupports.of_agreeBelow hkeeps.agree)
    have hbranches := hsupports.map_branch_eq hkeeps.agree
    have hcontext := hkeeps.substitution_eq hholds
    have hlength : (List.map (ChoicePoint.branch σ)
        (points ⟨σ, c, continuation, choices, inferences⟩)).length = choices.size := by
      rw [List.length_map, length_points]
    by_cases hempty : untried.isEmpty = true
    · simp only [hempty, if_true]
      refine ⟨⟨hd, hs, hold.mono hkeeps.le⟩, ?_⟩
      simp only [Entry.view, view, hlength]
      exact congrArg (fun branches => Stage.proceed ⟨_, _, branches, _⟩) hbranches
    · simp only [hempty, Bool.false_eq_true, if_false]
      refine ⟨⟨hd, hs, ?_⟩, ?_⟩
      · rw [points, Array.toList_push, List.reverse_append]
        exact ⟨hkeeps.le, hholds, by rw [hcontext]; exact hsettles, hold⟩
      · simp only [Entry.view, view, hlength]
        rw [points, Array.toList_push, List.reverse_append, List.reverse_singleton,
          List.singleton_append, List.map_cons, ChoicePoint.branch, hcontext]
        exact congrArg (fun branches => Stage.proceed ⟨_, _, _ :: branches, _⟩) hbranches
  · next τ =>
    have hcontext := hmatch.substitution_eq hholds
    refine ⟨⟨hholds.trans hmatch.le, by rw [hcontext]; exact hsettles,
      (hsupports.of_agreeBelow hmatch.agree).mono hmatch.le⟩, ?_⟩
    simp only [Entry.view, view, hcontext]
    exact congrArg (fun branches => Stage.backtrack ⟨_, _, branches, _⟩)
      (hsupports.map_branch_eq hmatch.agree)
  · exact ⟨trivial, rfl⟩

/-- Calling a predicate is calling it in the view. -/
theorem resolve_view {state : Search} (h : state.Sound) (call : Call) (depth : Nat) :
    (resolve config clausesOf steps call depth state).Sound ∧
      (resolve config clausesOf steps call depth state).view =
        state.view.resolve config clausesOf steps call depth := by
  rw [resolve, Exploration.resolve]
  split
  · exact ⟨trivial, rfl⟩
  · have hinferences : state.view.inferences = state.inferences := rfl
    rw [hinferences]
    dsimp only
    cases config.maxInferences.filter (· < state.inferences + 1) with
    | some limit => exact ⟨trivial, rfl⟩
    | none =>
      have hcounted : Sound { state with inferences := state.inferences + 1 } :=
        ⟨h.holds, h.settles, h.supports⟩
      obtain ⟨hsound, hview⟩ := enter_view config steps hcounted call (clausesOf call.indicator)
        depth state.continuation
      change _ = Exploration.enter config steps call (clausesOf call.indicator) depth
        state.view.continuation { state.view with inferences := state.inferences + 1 } at hview
      rw [← hview]
      cases henter : enter config steps call (clausesOf call.indicator) depth state.continuation
        { state with inferences := state.inferences + 1 } with
      | entered state' | missed state' =>
        rw [henter] at hsound
        exact ⟨hsound, rfl⟩
      | unfinished => exact ⟨trivial, rfl⟩

/-- A state with a substitution that unification made is sound. -/
theorem Sound.of_grows {state : Search} (h : state.Sound) {τ : Store} {d : Context}
    (hgrows : state.store.Grows τ) (hd : τ.Holds d) (hsettles : (τ.substitution d).Settles) :
    Sound { state with store := τ, context := d } where
  holds := hd
  settles := hsettles
  supports := (h.supports.of_agreeBelow hgrows.agree).mono hgrows.size_le

/-- Adding to the store of a sound search leaves its branches alone. -/
theorem view_of_grows {state : Search} (h : state.Sound) {τ : Store} (d : Context)
    (hgrows : state.store.Grows τ) :
    view { state with store := τ, context := d } =
      { state.view with substitution := τ.substitution d } := by
  have hbranches := h.supports.map_branch_eq hgrows.agree
  exact congrArg (fun branches => Exploration.mk _ _ branches _) hbranches

/-- Adding to the store of a sound search changes nothing that is seen. -/
theorem Sound.of_grows_clash {state : Search} (h : state.Sound) {τ : Store}
    (hgrows : state.store.Grows τ) :
    Sound { state with store := τ } ∧ view { state with store := τ } = state.view := by
  have hcontext := hgrows.keeps.substitution_eq h.holds
  refine ⟨h.of_grows hgrows (h.holds.trans hgrows.size_le) ?_, ?_⟩
  · rw [hcontext]
    exact h.settles
  · refine (view_of_grows h state.context hgrows).trans ?_
    rw [hcontext]
    rfl

/-- Unifying two terms in a sound search ends as it does in the view. -/
theorem Sound.realizes_unify {state : Search} (h : state.Sound) (left right : Occurrence) :
    (unify .byOccurrence config.occursCheck steps state.store state.context left right).Realizes
      state.store (state.view.substitution.unifyPairs .byOccurrence config.occursCheck steps []
        [(left, right)]) :=
  Store.unifyPairs_realizes h.holds h.settles .byOccurrence config.occursCheck steps []
    [(left, right)]

/-- Doing what a goal asks for is doing it in the view. -/
theorem perform_view {state : Search} (h : state.Sound) (goal : Goal) (barrier depth : Nat) :
    (perform config clausesOf steps goal barrier depth state).Sound ∧
      (perform config clausesOf steps goal barrier depth state).view =
        state.view.perform config clausesOf steps goal barrier depth := by
  have hlength := state.length_branches_view
  cases goal with
  | truth | failure => exact ⟨h, rfl⟩
  | cut => exact ⟨h.cut barrier, congrArg Stage.proceed (view_cut barrier state)⟩
  | both left right => exact ⟨h.continueWith _, rfl⟩
  | either left right =>
    refine ⟨(h.offer right barrier depth).continueWith _, ?_⟩
    rw [perform, Exploration.perform, Move.view, view_continueWith, view_offer]
    rfl
  | ifThen condition consequent alternative =>
    cases alternative with
    | none =>
      refine ⟨h.continueWith _, ?_⟩
      rw [perform, Exploration.perform, Move.view, view_continueWith]
      simp only [hlength]
      rfl
    | some goal =>
      have hoffered := (state.offer goal barrier depth).length_branches_view
      refine ⟨(h.offer goal barrier depth).continueWith _, ?_⟩
      rw [view_offer] at hoffered
      rw [perform, Exploration.perform, Move.view, view_continueWith, view_offer]
      simp only [hlength, hoffered]
      rfl
  | negation goal =>
    have hoffered := (state.offer (.whole 0 Clause.truth) barrier depth).length_branches_view
    refine ⟨(h.offer _ barrier depth).continueWith _, ?_⟩
    rw [view_offer] at hoffered
    rw [perform, Exploration.perform, Move.view, view_continueWith, view_offer]
    simp only [hlength, hoffered]
  | call target extra =>
    have hderef : state.store.deref state.context target = state.view.substitution.deref target :=
      Store.deref_eq h.settles target
    rw [perform, Exploration.perform, hderef]
    cases Call.ofOccurrence (state.view.substitution.deref target) with
    | error error => exact ⟨trivial, rfl⟩
    | ok call =>
      refine ⟨h.continueWith _, ?_⟩
      rw [Move.view, view_continueWith, hlength]
      rfl
  | unify left right =>
    have hunify := h.realizes_unify config steps left right
    rw [perform, Exploration.perform]
    cases hv : state.view.substitution.unifyPairs .byOccurrence config.occursCheck steps []
      [(left, right)] with
    | unified s =>
      rw [hv] at hunify
      obtain ⟨τ, d, hu, hgrows, hd, rfl, hs⟩ := hunify.exists_unified
      simp only [hu]
      exact ⟨h.of_grows hgrows hd hs, congrArg Stage.proceed (view_of_grows h d hgrows)⟩
    | clash =>
      rw [hv] at hunify
      obtain ⟨τ, hu, hgrows⟩ := hunify.exists_clash
      obtain ⟨hsound, hview⟩ := h.of_grows_clash hgrows
      simp only [hu]
      exact ⟨hsound, congrArg Stage.backtrack hview⟩
    | unfinished =>
      rw [hv] at hunify
      simp only [hunify.eq_unfinished]
      exact ⟨trivial, rfl⟩
  | differ left right =>
    have hunify := h.realizes_unify config steps left right
    rw [perform, Exploration.perform]
    cases hv : state.view.substitution.unifyPairs .byOccurrence config.occursCheck steps []
      [(left, right)] with
    | unified s =>
      rw [hv] at hunify
      obtain ⟨τ, d, hu, hgrows, _⟩ := hunify.exists_unified
      obtain ⟨hsound, hview⟩ := h.of_grows_clash hgrows
      simp only [hu]
      exact ⟨hsound, congrArg Stage.backtrack hview⟩
    | clash =>
      rw [hv] at hunify
      obtain ⟨τ, hu, hgrows⟩ := hunify.exists_clash
      obtain ⟨hsound, hview⟩ := h.of_grows_clash hgrows
      simp only [hu]
      exact ⟨hsound, congrArg Stage.proceed hview⟩
    | unfinished =>
      rw [hv] at hunify
      simp only [hunify.eq_unfinished]
      exact ⟨trivial, rfl⟩
  | predicate call => exact resolve_view config clausesOf steps h call depth

/-- Doing what a call asks for is doing it in the view. -/
theorem performCall_view {state : Search} (h : state.Sound) (call : Call) (barrier depth : Nat) :
    (performCall config clausesOf steps call barrier depth state).Sound ∧
      (performCall config clausesOf steps call barrier depth state).view =
        state.view.performCall config clausesOf steps call barrier depth := by
  rw [performCall, Exploration.performCall]
  cases Goal.ofCall call with
  | error error => exact ⟨trivial, rfl⟩
  | ok goal => exact perform_view config clausesOf steps h goal barrier depth

/-- A step of a sound search is the step of its view. -/
theorem advance_view {state : Search} (h : state.Sound) :
    (state.advance config clausesOf steps).Sound ∧
      (state.advance config clausesOf steps).view =
        state.view.advance config clausesOf steps := by
  obtain ⟨σ, c, continuation, choices, inferences⟩ := state
  match continuation with
  | [] => exact ⟨h, rfl⟩
  | .cutTo height :: next =>
    have hnext : Sound ⟨σ, c, next, choices, inferences⟩ := ⟨h.holds, h.settles, h.supports⟩
    exact ⟨hnext.cut height, congrArg Stage.proceed (view_cut height _)⟩
  | .call call barrier depth :: next =>
    have hnext : Sound ⟨σ, c, next, choices, inferences⟩ := ⟨h.holds, h.settles, h.supports⟩
    exact performCall_view config clausesOf steps hnext call barrier depth
  | .goal goal barrier depth :: next =>
    have hnext : Sound ⟨σ, c, next, choices, inferences⟩ := ⟨h.holds, h.settles, h.supports⟩
    have hderef : σ.deref c goal = (σ.substitution c).deref goal := Store.deref_eq h.settles goal
    rw [advance, hderef, view, Exploration.advance]
    dsimp only
    cases Call.ofOccurrence ((σ.substitution c).deref goal) with
    | error error => exact ⟨trivial, rfl⟩
    | ok call => exact performCall_view config clausesOf steps hnext call barrier depth

/-- The newest choice point of a search that has one, and the search without it. -/
theorem points_of_back? {state : Search} {point : ChoicePoint}
    (h : state.choices.back? = some point) :
    state.points = point :: state.choices.pop.toList.reverse := by
  obtain ⟨older, holder⟩ := Array.back?_eq_some_iff.1 h
  rw [points, holder, Array.pop_push, Array.toList_push, List.reverse_append,
    List.reverse_singleton, List.singleton_append]

/-- Going back to the newest choice point: its context is sound, and the search that is
taken up there has the view of the newest branch. -/
theorem Sound.reclaim {state : Search} (h : state.Sound) {point : ChoicePoint}
    (hback : state.choices.back? = some point) (continuation : List Frame) :
    Sound ⟨config.reclaim point.mark state.store, point.context, continuation,
        state.choices.pop, state.inferences⟩ ∧
      ∃ branches, state.view.branches =
          ⟨state.store.substitution point.context, point.alternative⟩ :: branches ∧
        view ⟨config.reclaim point.mark state.store, point.context, continuation,
          state.choices.pop, state.inferences⟩ =
        ⟨state.store.substitution point.context, continuation, branches, state.inferences⟩ := by
  have hpoints := points_of_back? hback
  have hsupports := h.supports
  rw [hpoints] at hsupports
  obtain ⟨hmark, hstamp, hsettles, hrest⟩ := hsupports
  have hkeeps := (Store.Keeps.refl hmark).reclaim config
  have hcontext := hkeeps.substitution_eq hstamp
  refine ⟨⟨hstamp.trans hkeeps.le, by rw [hcontext]; exact hsettles,
    (hrest.of_agreeBelow hkeeps.agree).mono hkeeps.le⟩,
    state.choices.pop.toList.reverse.map (ChoicePoint.branch state.store), ?_, ?_⟩
  · rw [view, hpoints, List.map_cons, ChoicePoint.branch]
  · rw [view]
    dsimp only
    rw [hcontext]
    exact congrArg (fun branches => Exploration.mk _ _ branches _)
      (hrest.map_branch_eq hkeeps.agree)

/-- Going back in a sound search is going back in its view. -/
theorem backtrack_view {state : Search} (h : state.Sound) :
    (state.backtrack config steps).Sound ∧
      (state.backtrack config steps).view =
        Exploration.backtrack config steps state.inferences state.view.branches := by
  fun_induction backtrack config steps state with
  | case1 σ c continuation choices inferences hlast =>
    have hempty : choices = #[] := Array.back?_eq_none_iff.1 hlast
    subst hempty
    exact ⟨h, rfl⟩
  | case2 σ c continuation choices inferences context mark goal barrier depth next hlast =>
    obtain ⟨hsound, branches, hbranches, hview⟩ := h.reclaim config hlast
      (.goal goal barrier depth :: next)
    refine ⟨hsound, ?_⟩
    rw [hbranches, Exploration.backtrack, Resumption.view]
    exact congrArg Exploration.Return.resumed hview
  | case3 σ c continuation choices inferences context mark call untried depth next hlast σ' state'
      henter =>
    obtain ⟨hsound, branches, hbranches, hview⟩ := h.reclaim config hlast continuation
    obtain ⟨hsound', hview'⟩ := enter_view config steps hsound call untried depth next
    rw [henter] at hsound' hview'
    refine ⟨hsound', ?_⟩
    rw [hbranches, Exploration.backtrack_clauses config steps continuation, ← hview, ← hview']
    rfl
  | case4 σ c continuation choices inferences context mark call untried depth next hlast σ' state'
      henter ih =>
    obtain ⟨hsound, branches, hbranches, hview⟩ := h.reclaim config hlast continuation
    obtain ⟨hsound', hview'⟩ := enter_view config steps hsound call untried depth next
    rw [henter] at hsound' hview'
    obtain ⟨hend, hgoes⟩ := ih hsound'
    refine ⟨hend, ?_⟩
    rw [hgoes, hbranches, Exploration.backtrack_clauses config steps continuation, ← hview,
      ← hview']
    have hmissed := Exploration.eq_of_enter_eq_backtrack (hview'.symm)
    rw [Entry.view]
    have hinferences : state'.inferences = state'.view.inferences := rfl
    rw [hinferences, hmissed, hview]
  | case5 σ c continuation choices inferences context mark call untried depth next hlast σ'
      henter =>
    obtain ⟨hsound, branches, hbranches, hview⟩ := h.reclaim config hlast continuation
    obtain ⟨_, hview'⟩ := enter_view config steps hsound call untried depth next
    rw [henter] at hview'
    refine ⟨trivial, ?_⟩
    rw [hbranches, Exploration.backtrack_clauses config steps continuation, ← hview, ← hview']
    rfl

end Search

end Steps

end ClauseResolution
