import ClauseResolution.Proofs.Clause.Names
import ClauseResolution.Proofs.Search.Invariant
import ClauseResolution.Proofs.Search.Mapping
import ClauseResolution.Proofs.Search.View
import ClauseResolution.Proofs.Unification.Names

/-!
# A search does not look at names

A search without its names takes the same steps: from the search without names, among the
clauses without names, a step leads to what it leads to with names, and then forgets them.
Only one thing could tell names apart. A unification compares an occurrence with those it is
inside of, and occurrences that differ in nothing but a name would be taken for one another.
They do not occur, because on each branch a slot has one name: the slots that are allocated
for a clause are named by the variables of the clause, and nothing renames a slot afterwards.
-/

namespace ClauseResolution

/-- The call without names. -/
def Call.unnamed (call : Call) : Call := ⟨call.functor, call.args.map Occurrence.unnamed⟩

/-- What a goal asks for, without names. -/
def Goal.unnamed : Goal → Goal
  | .truth => .truth
  | .failure => .failure
  | .cut => .cut
  | .both left right => .both left.unnamed right.unnamed
  | .either left right => .either left.unnamed right.unnamed
  | .ifThen condition consequent alternative =>
    .ifThen condition.unnamed consequent.unnamed (alternative.map Occurrence.unnamed)
  | .negation goal => .negation goal.unnamed
  | .call target extra => .call target.unnamed (extra.map Occurrence.unnamed)
  | .unify left right => .unify left.unnamed right.unnamed
  | .differ left right => .differ left.unnamed right.unnamed
  | .predicate callee => .predicate callee.unnamed

namespace Call

/-- A call has the same indicator without names. -/
@[simp] theorem indicator_unnamed (call : Call) : call.unnamed.indicator = call.indicator :=
  call.indicator_map

/-- Names can be hidden before or after arguments are added. -/
theorem addArgs_unnamed (call : Call) (extra : List Occurrence) :
    call.unnamed.addArgs (extra.map Occurrence.unnamed) = (call.addArgs extra).unnamed :=
  call.addArgs_map extra

/-- Which call is read off an occurrence does not depend on names. -/
theorem ofOccurrence_unnamed (o : Occurrence) :
    ofOccurrence o.unnamed = (ofOccurrence o).map unnamed := by
  have hargs := o.args_unnamed
  obtain ⟨text, node, term⟩ := o
  cases term with
  | atom | number | var => rfl
  | compound functor args varCount =>
    simp only [ofOccurrence, Occurrence.term_unnamed, Term.unnamed_compound, Except.map, unnamed,
      hargs]

end Call

namespace Goal

/-- Hiding the names in a goal hides them in its occurrences. -/
theorem unnamed_eq_map (goal : Goal) : goal.unnamed = goal.map Occurrence.unnamed := by
  cases goal <;> rfl

/-- What a call asks for does not depend on names. -/
theorem ofCall_unnamed (call : Call) : ofCall call.unnamed = (ofCall call).map unnamed := by
  rw [funext unnamed_eq_map]
  exact ofCall_map Call.ofOccurrence_unnamed call

end Goal

/-- The frame without names. -/
def Frame.unnamed : Frame → Frame
  | .goal target barrier depth => .goal target.unnamed barrier depth
  | .call callee barrier depth => .call callee.unnamed barrier depth
  | .cutTo height => .cutTo height

/-- What a choice point leaves to be tried, without names. -/
def Alternative.unnamed : Alternative → Alternative
  | .clauses callee untried depth next =>
    .clauses callee.unnamed (untried.map Clause.unnamed) depth (next.map Frame.unnamed)
  | .goal target barrier depth next => .goal target.unnamed barrier depth (next.map Frame.unnamed)

/-- The choice point without names. -/
def ChoicePoint.unnamed (point : ChoicePoint) : ChoicePoint :=
  ⟨point.context, point.mark, point.alternative.unnamed⟩

/-- The search without names. -/
def Search.unnamed (state : Search) : Search where
  store := state.store.unnamed
  context := state.context
  continuation := state.continuation.map Frame.unnamed
  choices := state.choices.map ChoicePoint.unnamed
  inferences := state.inferences

/-- What a step leads to, without names. -/
def Move.unnamed : Move → Move
  | .proceed state => .proceed state.unnamed
  | .backtrack state => .backtrack state.unnamed
  | .solution state => .solution state.unnamed
  | .error cause => .error cause
  | .unfinished => .unfinished

/-- What a look for a matching clause leads to, without names. -/
def Entry.unnamed : Entry → Entry
  | .entered state => .entered state.unnamed
  | .missed state => .missed state.unnamed
  | .unfinished => .unfinished

/-- The first match without names. -/
def ClauseMatch.unnamed : ClauseMatch → ClauseMatch
  | .found σ c body isFact untried =>
    .found σ.unnamed c body.unnamed isFact (untried.map Clause.unnamed)
  | .missing σ => .missing σ.unnamed
  | .unfinished => .unfinished

/-- What going back leads to, without names. -/
def Search.Resumption.unnamed : Search.Resumption → Search.Resumption
  | .resumed state => .resumed state.unnamed
  | .exhausted state => .exhausted state.unnamed
  | .unfinished => .unfinished

/-- The slots that are allocated for a clause get the names of its variables. -/
theorem Substitution.Names.allocate {s : Substitution} {names : List String} {clause : Clause}
    (h : s.Names names) (hclause : clause.Placed) :
    (s.allocate clause.varCount).Names (names ++ clause.varNames) ∧
      (clause.rename s.context).head.term.Named (names ++ clause.varNames) ∧
      (clause.rename s.context).body.term.Named (names ++ clause.varNames) := by
  have htop : names.length = s.context.top := h.length
  have hhead := Clause.named_instantiate hclause.head names
  have hbody := Clause.named_instantiate hclause.body names
  rw [htop] at hhead hbody
  refine ⟨⟨?_, fun slot value hmem => ?_⟩, hhead, hbody⟩
  · rw [List.length_append, h.length]
    rfl
  · exact (h.value slot value hmem).mono (List.prefix_append ..)

/-- What the goals of a branch reach has one name for each slot. -/
def naming (config : Config) : BranchInvariant config where
  Index := List String
  Suits names s := s.Names names
  Has names t := t.Named names
  Admits clause := clause.Placed
  truth _ := Term.named_atom "true"
  arg h ht := h.of_mem_args ht
  deref h ho := h.deref ho
  unify h hpairs hunified := h.unifyPairs hpairs hunified
  enter {names s clause} h hclause := by
    obtain ⟨hnames, hhead, hbody⟩ := h.allocate hclause
    exact ⟨_, hnames, fun t ht => ht.mono (List.prefix_append ..), hhead, hbody⟩

section Steps

variable (config : Config) (clausesOf : String → List Clause) (steps : Nat)

/-- Names can be hidden before or after a store is reclaimed. -/
theorem Config.reclaim_unnamed (mark : Nat) (σ : Store) :
    config.reclaim mark σ.unnamed = (config.reclaim mark σ).unnamed := by
  rw [reclaim, reclaim]
  split
  · exact σ.truncate_unnamed mark
  · rfl

/-- Unifying a call with a head does not look at names. -/
theorem Call.unifyHead_unnamed {σ : Store} {c : Context} {names : List String} {call : Call}
    {head : Occurrence} (hc : σ.Holds c) (hsettles : (σ.substitution c).Settles)
    (h : (σ.substitution c).Names names) (hcall : ∀ arg ∈ call.args, arg.term.Named names)
    (hhead : head.term.Named names) :
    call.unnamed.unifyHead config steps σ.unnamed c head.unnamed =
      (call.unifyHead config steps σ c head).unnamed := by
  rw [unifyHead, unifyHead, Occurrence.term_unnamed]
  cases hterm : head.term with
  | atom | number | var => rfl
  | compound functor args varCount =>
    have hpairs : NamedPairs names (call.args.zip head.args) := fun p hp => by
      obtain ⟨hfst, hsnd⟩ := List.of_mem_zip hp
      exact ⟨hcall _ hfst, hhead.of_mem_args (Occurrence.term_mem_args hsnd)⟩
    have hzip : call.unnamed.args.zip head.unnamed.args =
        (call.args.zip head.args).map unnamedPair := by
      rw [Occurrence.args_unnamed]
      exact List.zip_map ..
    have hunify : ClauseResolution.unifyPairs .byOccurrence config.occursCheck steps σ.unnamed c []
        ((call.args.zip head.args).map unnamedPair) =
          (ClauseResolution.unifyPairs .byOccurrence config.occursCheck steps σ c []
            (call.args.zip head.args)).unnamed :=
      Store.unifyPairs_unnamed hc hsettles h (List.forall_mem_nil _) hpairs
    simp only [Term.unnamed_compound, List.length_map, hzip]
    have hlength : call.unnamed.args.length = call.args.length := List.length_map _
    have hfunctor : call.unnamed.functor = call.functor := rfl
    rw [hlength, hfunctor]
    split
    · exact hunify
    · rfl

/-- Looking for a matching clause does not look at names. -/
theorem firstMatch_unnamed {σ τ : Store} {c : Context} {mark : Nat} {names : List String}
    {call : Call} {clauses : List Clause} (hkeeps : σ.Keeps τ mark) (hstamp : c.stamp ≤ mark)
    (hsettles : (σ.substitution c).Settles) (h : (σ.substitution c).Names names)
    (hcall : ∀ arg ∈ call.args, arg.term.Named names)
    (hclauses : ∀ clause ∈ clauses, clause.Placed) :
    firstMatch config steps c mark call.unnamed τ.unnamed (clauses.map Clause.unnamed) =
      (firstMatch config steps c mark call τ clauses).unnamed := by
  induction clauses generalizing τ with
  | nil => rfl
  | cons clause clauses ih =>
    obtain ⟨hclause, hrest⟩ := List.forall_mem_cons.1 hclauses
    obtain ⟨hnames, hfreshHead, _⟩ := h.allocate hclause
    have hhead : (clause.rename c).head.term.Named (names ++ clause.varNames) := hfreshHead
    have hfresh : τ.substitution (clause.rename c).context =
        (σ.substitution c).allocate clause.varCount := by
      rw [← hkeeps.substitution_eq hstamp]
      rfl
    have hholds : τ.Holds (clause.rename c).context := hstamp.trans hkeeps.le
    have hsettled : (τ.substitution (clause.rename c).context).Settles := by
      rw [hfresh]
      exact hsettles.withTop _
    have hunnamed := Call.unifyHead_unnamed config steps hholds hsettled
      (by rw [hfresh]; exact hnames) (fun arg harg => (hcall arg harg).mono (List.prefix_append ..))
      hhead
    have hrealizes := Call.unifyHead_realizes config steps hholds hsettled call
      (clause.rename c).head
    rw [List.map_cons, firstMatch, firstMatch, Clause.rename_unnamed, Clause.Instance.unnamed]
    dsimp only
    rw [hunnamed]
    cases hu : call.unifyHead config steps τ (clause.rename c).context (clause.rename c).head with
    | unified υ d =>
      simp only [Unified.unnamed, ClauseMatch.unnamed, Clause.isFact_unnamed]
    | unfinished => rfl
    | clash υ =>
      rw [hu] at hrealizes
      simp only [Unified.unnamed, Config.reclaim_unnamed]
      exact ih ((hkeeps.trans_grows hrealizes.grows).reclaim config) hrest

namespace Search

variable {state : Search} {call : Call} {clauses : List Clause} {barrier depth : Nat}
  {next : List Frame}

/-- Entering a clause does not look at names. -/
theorem enter_unnamed (h : state.Sound)
    (hcarried : (naming config).Carried state.view.substitution (.call call barrier depth :: next))
    (hclauses : ∀ clause ∈ clauses, clause.Placed) :
    enter config steps call.unnamed (clauses.map Clause.unnamed) depth (next.map Frame.unnamed)
        state.unnamed =
      (enter config steps call clauses depth next state).unnamed := by
  obtain ⟨σ, c, continuation, choices, inferences⟩ := state
  obtain ⟨hholds, hsettles, _⟩ := h
  obtain ⟨names, hnames, hframes⟩ := hcarried
  have hcall := List.forall_mem_map.1 (hframes _ List.mem_cons_self)
  have hmatch := firstMatch_unnamed config steps (Store.Keeps.refl (le_refl σ.size)) hholds hsettles
    hnames hcall hclauses
  rw [enter, enter, unnamed]
  dsimp only at hmatch ⊢
  rw [Store.size_unnamed, hmatch, Array.size_map]
  cases firstMatch config steps c σ.size call σ clauses with
  | missing τ => rfl
  | unfinished => rfl
  | found τ d body isFact untried =>
    simp only [ClauseMatch.unnamed, List.isEmpty_map, Entry.unnamed, unnamed]
    congr 2
    · cases isFact <;> rfl
    · split
      · rfl
      · rw [Array.map_push]
        rfl

/-- Names can be hidden before or after a cut. -/
theorem cut_unnamed (height : Nat) (state : Search) :
    state.unnamed.cut height = (state.cut height).unnamed := by
  simp [cut, unnamed]

/-- Names can be hidden before or after a branch is offered. -/
theorem offer_unnamed (target : Occurrence) (barrier depth : Nat) (state : Search) :
    state.unnamed.offer target.unnamed barrier depth =
      (state.offer target barrier depth).unnamed := by
  simp [offer, unnamed, ChoicePoint.unnamed, Alternative.unnamed]

/-- Calling a predicate does not look at names. -/
theorem resolve_unnamed (hclauses : ∀ key, ∀ clause ∈ clausesOf key, clause.Placed)
    (h : state.Sound) (hcarried : (naming config).Carried state.view.substitution
      (.call call barrier depth :: state.continuation)) :
    resolve config (fun key => (clausesOf key).map Clause.unnamed) steps call.unnamed depth
        state.unnamed =
      (resolve config clausesOf steps call depth state).unnamed := by
  rw [resolve, resolve]
  split
  · rfl
  · have hinferences : state.unnamed.inferences = state.inferences := rfl
    rw [hinferences]
    dsimp only
    cases config.maxInferences.filter (· < state.inferences + 1) with
    | some limit => rfl
    | none =>
      have hcounted : Sound { state with inferences := state.inferences + 1 } :=
        ⟨h.holds, h.settles, h.supports⟩
      have henter := enter_unnamed config steps hcounted hcarried (hclauses call.indicator)
      dsimp only
      rw [Call.indicator_unnamed]
      change (match enter config steps call.unnamed _ depth (state.continuation.map Frame.unnamed)
        (unnamed { state with inferences := state.inferences + 1 }) with
        | .entered state => Move.proceed state
        | .missed state => .backtrack state
        | .unfinished => .unfinished) = _
      rw [henter]
      cases enter config steps call (clausesOf call.indicator) depth state.continuation
        { state with inferences := state.inferences + 1 } <;> rfl

/-- Doing what a call asks for does not look at names. -/
theorem perform_unnamed {goal : Goal} (hclauses : ∀ key, ∀ clause ∈ clausesOf key, clause.Placed)
    (hasks : Goal.Asks call goal) (h : state.Sound)
    (hcarried : (naming config).Carried state.view.substitution
      (.call call barrier depth :: state.continuation)) :
    perform config (fun key => (clausesOf key).map Clause.unnamed) steps goal.unnamed barrier depth
        state.unnamed =
      (perform config clausesOf steps goal barrier depth state).unnamed := by
  have hunify : ∀ left right, call.args = [left, right] →
      ClauseResolution.unify .byOccurrence config.occursCheck steps state.store.unnamed
          state.context left.unnamed right.unnamed =
        (ClauseResolution.unify .byOccurrence config.occursCheck steps state.store
          state.context left right).unnamed := by
    intro left right hargs
    obtain ⟨names, hnames, hframes⟩ := hcarried
    have hterms := List.forall_mem_map.1 (hframes _ List.mem_cons_self)
    rw [hargs] at hterms
    have hpair : NamedPairs names [(left, right)] :=
      List.forall_mem_singleton.2 ⟨hterms left (by simp), hterms right (by simp)⟩
    exact Store.unifyPairs_unnamed h.holds h.settles hnames (List.forall_mem_nil _) hpair
  have hheight : ∀ s : Search, s.unnamed.choices.size = s.choices.size := fun s => Array.size_map
  cases hasks with
  | truth | failure => rfl
  | cut => exact congrArg Move.proceed (cut_unnamed barrier state)
  | both => rfl
  | either =>
    simp only [perform, Goal.unnamed, offer_unnamed]
    rfl
  | ifThenElse =>
    simp only [perform, Goal.unnamed, Option.map_some, offer_unnamed, hheight]
    rfl
  | ifThen =>
    simp only [perform, Goal.unnamed, Option.map_none, hheight]
    rfl
  | negation =>
    have htruth : (Occurrence.whole 0 Clause.truth).unnamed = .whole 0 Clause.truth := rfl
    have hoffer := offer_unnamed (.whole 0 Clause.truth) barrier depth state
    rw [htruth] at hoffer
    simp only [perform, Goal.unnamed, hoffer, hheight]
    rfl
  | @call target extra =>
    have hderef : state.unnamed.store.deref state.unnamed.context target.unnamed =
        (state.store.deref state.context target).unnamed :=
      state.store.deref_unnamed state.context target
    simp only [perform, Goal.unnamed, hderef, Call.ofOccurrence_unnamed]
    cases Call.ofOccurrence (state.store.deref state.context target) with
    | error cause => rfl
    | ok callee =>
      simp only [Except.map, Call.addArgs_unnamed, hheight]
      rfl
  | @unify left right | @differ left right =>
    obtain ⟨σ, c, continuation, choices, inferences⟩ := state
    have hends := hunify left right rfl
    simp only [perform, Goal.unnamed, unnamed] at hends ⊢
    rw [hends]
    cases ClauseResolution.unify .byOccurrence config.occursCheck steps σ c left right <;> rfl
  | predicate => exact resolve_unnamed config clausesOf steps hclauses h hcarried

/-- Doing what a call asks for does not look at names. -/
theorem performCall_unnamed (hclauses : ∀ key, ∀ clause ∈ clausesOf key, clause.Placed)
    (h : state.Sound) (hcarried : (naming config).Carried state.view.substitution
      (.call call barrier depth :: state.continuation)) :
    performCall config (fun key => (clausesOf key).map Clause.unnamed) steps call.unnamed barrier
        depth state.unnamed =
      (performCall config clausesOf steps call barrier depth state).unnamed := by
  rw [performCall, performCall, Goal.ofCall_unnamed]
  cases hgoal : Goal.ofCall call with
  | error cause => rfl
  | ok goal =>
    exact perform_unnamed config clausesOf steps hclauses (Goal.asks_of_ofCall hgoal) h hcarried

/-- A step does not look at names. -/
theorem advance_unnamed (hclauses : ∀ key, ∀ clause ∈ clausesOf key, clause.Placed)
    (h : state.Sound) (hnamed : (naming config).OfExploration state.view) :
    state.unnamed.advance config (fun key => (clausesOf key).map Clause.unnamed) steps =
      (state.advance config clausesOf steps).unnamed := by
  obtain ⟨σ, c, continuation, choices, inferences⟩ := state
  have hcurrent := hnamed.current
  match continuation with
  | [] => rfl
  | .cutTo height :: next =>
    exact congrArg Move.proceed (cut_unnamed height ⟨σ, c, next, choices, inferences⟩)
  | .call call barrier depth :: next =>
    have hnext : Sound ⟨σ, c, next, choices, inferences⟩ := ⟨h.holds, h.settles, h.supports⟩
    exact performCall_unnamed config clausesOf steps hclauses hnext hcurrent
  | .goal target barrier depth :: next =>
    have hnext : Sound ⟨σ, c, next, choices, inferences⟩ := ⟨h.holds, h.settles, h.supports⟩
    have hderef : σ.deref c target = (σ.substitution c).deref target :=
      Store.deref_eq h.settles target
    simp only [unnamed, List.map_cons, Frame.unnamed, advance, Store.deref_unnamed,
      Call.ofOccurrence_unnamed]
    cases hcall : Call.ofOccurrence (σ.deref c target) with
    | error cause => rfl
    | ok call =>
      rw [hderef] at hcall
      have hcalled := hcurrent.followed hcall
      exact performCall_unnamed config clausesOf steps hclauses hnext hcalled

/-- The newest choice point without names is that of the search without names. -/
theorem back?_unnamed (state : Search) :
    state.unnamed.choices.back? = state.choices.back?.map ChoicePoint.unnamed :=
  Array.back?_map ..

/-- Taking up the newest choice point does not look at names, when clauses are left there. -/
theorem backtrack_clauses_unnamed {c : Context} {mark : Nat} (h : state.Sound)
    (hnamed : ∀ branch ∈ state.view.branches, (naming config).OfBranch branch)
    (hlast : state.choices.back? = some ⟨c, mark, .clauses call clauses depth next⟩) :
    state.unnamed.backtrack config steps =
      match (enter config steps call clauses depth next ⟨config.reclaim mark state.store, c,
        state.continuation, state.choices.pop, state.inferences⟩).unnamed with
      | .entered state => .resumed state
      | .missed state => state.backtrack config steps
      | .unfinished => .unfinished := by
  obtain ⟨hsound, branches, hbranches, hview⟩ := h.reclaim config hlast state.continuation
  rw [hbranches] at hnamed
  obtain ⟨hcarried, huntried⟩ := (List.forall_mem_cons.1 hnamed).1
  have hcalled : (naming config).Carried (view ⟨config.reclaim mark state.store, c,
      state.continuation, state.choices.pop, state.inferences⟩).substitution
      (.call call 0 depth :: next) := by
    rw [hview]
    exact hcarried
  have hplaced : ∀ clause ∈ clauses, clause.Placed := huntried
  have henter := enter_unnamed config steps hsound hcalled hplaced
  have hpopped : unnamed ⟨config.reclaim mark state.store, c, state.continuation,
      state.choices.pop, state.inferences⟩ = ⟨config.reclaim mark state.unnamed.store, c,
        state.unnamed.continuation, state.unnamed.choices.pop, state.unnamed.inferences⟩ := by
    simp only [unnamed, Config.reclaim_unnamed, Array.map_pop]
  dsimp only at henter
  rw [hpopped] at henter
  rw [backtrack_eq, back?_unnamed, hlast, ← henter]
  rfl

/-- Going back does not look at names. -/
theorem backtrack_unnamed (h : state.Sound)
    (hnamed : ∀ branch ∈ state.view.branches, (naming config).OfBranch branch) :
    state.unnamed.backtrack config steps = (state.backtrack config steps).unnamed := by
  fun_induction backtrack config steps state with
  | case1 σ c continuation choices inferences hlast =>
    rw [backtrack_eq, back?_unnamed, hlast]
    rfl
  | case2 σ c continuation choices inferences context mark goal barrier depth next hlast =>
    rw [backtrack_eq, back?_unnamed, hlast]
    simp only [Option.map_some, ChoicePoint.unnamed, Alternative.unnamed, Resumption.unnamed,
      unnamed, Config.reclaim_unnamed, Array.map_pop, List.map_cons, Frame.unnamed]
    rfl
  | case3 σ c continuation choices inferences context mark call untried depth next hlast σ' state'
      henter =>
    rw [backtrack_clauses_unnamed config steps h hnamed hlast, henter]
    rfl
  | case4 σ c continuation choices inferences context mark call untried depth next hlast σ' state'
      henter ih =>
    obtain ⟨hsound, branches, hbranches, hview⟩ := h.reclaim config hlast continuation
    obtain ⟨hsound', hview'⟩ := enter_view config steps hsound call untried depth next
    rw [henter] at hsound' hview'
    have hmissed := Exploration.eq_of_enter_eq_backtrack hview'.symm
    rw [hview] at hmissed
    have hrest : ∀ branch ∈ state'.view.branches, (naming config).OfBranch branch := by
      rw [hmissed]
      rw [hbranches] at hnamed
      exact (List.forall_mem_cons.1 hnamed).2
    rw [backtrack_clauses_unnamed config steps h hnamed hlast, henter]
    exact ih hsound' hrest
  | case5 σ c continuation choices inferences context mark call untried depth next hlast σ'
      henter =>
    rw [backtrack_clauses_unnamed config steps h hnamed hlast, henter]
    rfl

end Search

end Steps

end ClauseResolution
