import ClauseResolution.Proofs.Search.Checked
import ClauseResolution.Proofs.Search.Freshness
import Mathlib.Algebra.GroupWithZero.Nat

/-!
# A bound on the calls bounds a search with the occurs check

A call of a predicate is counted, so only finitely many follow each other on a branch or on
branches taken up after it. Between two calls, a unification leaves fewer free slots or binds
nothing, and every other step replaces the next frame by frames that are smaller once the
substitution is applied to them, on the present branch and on the one that it leaves. A
branch at which clauses are left to try loses one whenever it is taken up.
-/

namespace ClauseResolution

/-- What the goals that remain may cost, apart from calls of predicates: twice the extent of
a goal, and so that a call costs no more than the goal it is read off. -/
def Frame.weight (θ : Assignment) : Frame → Nat
  | .goal target _ _ => 2 * (target.term.assign θ).extent
  | .call callee _ _ => 2 * Term.extents (callee.args.map fun arg => arg.term.assign θ) + 1
  | .cutTo _ => 1

/-- The weight of frames one after the other. -/
def Frame.weightAll (θ : Assignment) (frames : List Frame) : Nat :=
  (frames.map (Frame.weight θ)).sum

/-- The slots of a frame are among those of a finite set. -/
def Frame.Within (slots : Finset Nat) (frame : Frame) : Prop :=
  ∀ t ∈ frame.terms, ∀ i ∈ t.slots, i ∈ slots

namespace Exploration

/-- What a search does next, with whatever clauses and however many steps: a step, or going
back after one. -/
inductive Next (config : Config) : Exploration → Exploration → Prop
  /-- A step. -/
  | proceed {clausesOf : String → List Clause} {steps : Nat} {e e' : Exploration}
      (h : e.advance config clausesOf steps = .proceed e') : Next config e e'
  /-- Going back after a failure or after a solution. -/
  | back {clausesOf : String → List Clause} {steps steps' : Nat} {e e' e'' : Exploration}
      (h : e.advance config clausesOf steps = .backtrack e' ∨
        e.advance config clausesOf steps = .solution e')
      (hback : backtrack config steps' e'.inferences e'.branches = .resumed e'') :
      Next config e e''

/-- The search does not go on for ever. -/
def Terminates (config : Config) (e : Exploration) : Prop :=
  Acc (fun after before => Next config before after) e

/-- Going back to one of the branches is not the start of a search that goes on for ever. -/
def Falls (config : Config) (inferences : Nat) (branches : List Branch) : Prop :=
  ∀ steps e, backtrack config steps inferences branches = .resumed e → e.Terminates config

end Exploration

/-- A step is not the start of a search that goes on for ever. -/
def Stage.Terminates (config : Config) : Stage → Prop
  | .proceed e => e.Terminates config
  | .backtrack e | .solution e => Exploration.Falls config e.inferences e.branches
  | .error _ | .unfinished => True

namespace Exploration

variable {config : Config} {clausesOf : String → List Clause} {steps : Nat} {slots : Finset Nat}
  {e e' : Exploration}

/-- What comes next has no cyclic substitution. -/
theorem Next.acyclic (hcheck : config.occursCheck = true) (hnext : Next config e e')
    (h : e.Acyclic) : e'.Acyclic := by
  cases hnext with
  | @proceed clausesOf steps _ _ hstep =>
    have hstage : (e.advance config clausesOf steps).Acyclic := advance_acyclic hcheck h
    rwa [hstep] at hstage
  | @back clausesOf steps steps' _ e'' _ hstep hback =>
    have hstage : (e.advance config clausesOf steps).Acyclic := advance_acyclic hcheck h
    have hfailed : e''.Acyclic := by rcases hstep with hstep | hstep <;> rwa [hstep] at hstage
    exact backtrack_acyclic hcheck hfailed.branches hback

/-- A search terminates when all of its steps do. -/
theorem terminates_of_advance
    (h : ∀ clausesOf steps, (e.advance config clausesOf steps).Terminates config) :
    e.Terminates config := by
  refine Acc.intro e fun after hnext => ?_
  cases hnext with
  | @proceed clausesOf steps _ _ hstep =>
    have hstage := h clausesOf steps
    rwa [hstep] at hstage
  | @back clausesOf steps steps' _ e' _ hstep hback =>
    have hstage := h clausesOf steps
    rcases hstep with hstep | hstep
    all_goals
      rw [hstep] at hstage
      exact hstage steps' after hback

/-- A search in which nothing goes on for ever on the branches to return to, and in which the
slots are among those of a finite set. -/
structure Bounded (config : Config) (slots : Finset Nat) (e : Exploration) : Prop where
  /-- No substitution is cyclic. -/
  acyclic : e.Acyclic
  /-- The slots in the values are in the set. -/
  values : e.substitution.Confined slots []
  /-- So are those of the goals that remain. -/
  goals : ∀ frame ∈ e.continuation, frame.Within slots
  /-- Nothing goes on for ever after going back, also when branches are dropped before. -/
  falls : ∀ count, Falls config e.inferences (e.branches.drop count)

/-- Fewer slots are free after as many calls, or the same are and less remains to be done. -/
def Smaller (slots : Finset Nat) (e' e : Exploration) : Prop :=
  e'.inferences = e.inferences ∧
    (e'.substitution.freeCount slots < e.substitution.freeCount slots ∨
      e'.substitution = e.substitution ∧
        Frame.weightAll e.substitution.solution e'.continuation <
          Frame.weightAll e.substitution.solution e.continuation)

/-- Becoming smaller in this sense comes to an end. -/
theorem wellFounded_smaller (slots : Finset Nat) : WellFounded (Smaller slots) := by
  let size (e : Exploration) : Nat × Nat :=
    (e.substitution.freeCount slots, Frame.weightAll e.substitution.solution e.continuation)
  have hlex : WellFounded (Prod.Lex (· < ·) (· < ·) : Nat × Nat → Nat × Nat → Prop) :=
    (Prod.lex Nat.lt_wfRel Nat.lt_wfRel).wf
  refine Subrelation.wf (fun {e' e} hsmaller => ?_) (InvImage.wf size hlex)
  obtain ⟨_, hfree | ⟨hsame, hweight⟩⟩ := hsmaller
  · exact Prod.Lex.left _ _ hfree
  · have hsize : size e' = (e.substitution.freeCount slots,
        Frame.weightAll e.substitution.solution e'.continuation) := by simp only [size, hsame]
    rw [InvImage, hsize]
    exact Prod.Lex.right _ hweight

end Exploration

section Weights

variable {θ : Assignment} {s : Substitution} {call : Call} {o : Occurrence} {frame : Frame}
  {next : List Frame} {barrier depth : Nat} {slots : Finset Nat}

/-- The weight of some frames is the weight of the first and that of the others. -/
@[simp] theorem Frame.weightAll_cons :
    Frame.weightAll θ (frame :: next) = frame.weight θ + Frame.weightAll θ next := by
  simp [weightAll]

/-- A call that is read off an occurrence has the extent of the occurrence but for its
root. -/
theorem Call.extents_of_ofOccurrence (h : Call.ofOccurrence o = .ok call) :
    (o.term.assign θ).extent =
      1 + Term.extents (call.args.map fun arg => arg.term.assign θ) := by
  obtain ⟨text, node, term⟩ := o
  cases term with
  | atom name =>
    cases h
    rfl
  | compound functor args varCount =>
    cases h
    rw [Occurrence.map_assign_args, Term.assign_compound, Term.extent]
    rfl
  | number value => cases h
  | var v => cases h

/-- A call costs no more than the goal it is read off. -/
theorem Frame.weight_call_le (hs : s.Acyclic) (h : Call.ofOccurrence (s.deref o) = .ok call) :
    (Frame.call call barrier depth).weight s.solution ≤
      (Frame.goal o barrier depth).weight s.solution := by
  have hextent := Call.extents_of_ofOccurrence (θ := s.solution) h
  rw [hs.assign_deref] at hextent
  simp only [weight]
  omega

/-- A goal has its slots in a set when its term has. -/
theorem Frame.within_goal : (Frame.goal o barrier depth).Within slots ↔
    ∀ i ∈ o.term.slots, i ∈ slots := List.forall_mem_singleton

/-- A call has its slots in a set when its arguments have. -/
theorem Frame.within_call : (Frame.call call barrier depth).Within slots ↔
    ∀ arg ∈ call.args, ∀ i ∈ arg.term.slots, i ∈ slots := List.forall_mem_map

/-- A cut has no slots. -/
theorem Frame.within_cutTo (height : Nat) : (Frame.cutTo height).Within slots := by
  simp [Within, terms]

/-- The slots of a call are among those of the occurrence it is read off. -/
theorem Call.within_of_ofOccurrence (h : Call.ofOccurrence o = .ok call)
    (ho : ∀ i ∈ o.term.slots, i ∈ slots) : ∀ arg ∈ call.args, ∀ i ∈ arg.term.slots, i ∈ slots :=
  fun _ harg i hi => ho i (Term.mem_slots_of_mem_args (Call.term_mem_args h harg) hi)

/-- There are finitely many slots in the values of a substitution and in frames. -/
theorem Frame.exists_within (s : Substitution) (frames : List Frame) :
    ∃ slots, s.Confined slots [] ∧ ∀ frame ∈ frames, frame.Within slots := by
  let ofValues := s.bindings.flatMap fun binding => binding.2.term.slots
  let ofFrames := frames.flatMap fun frame => frame.terms.flatMap Term.slots
  refine ⟨(ofValues ++ ofFrames).toFinset, ⟨fun slot value hmem i hi => ?_, by simp⟩, ?_⟩
  · exact List.mem_toFinset.2 (List.mem_append_left _ (List.mem_flatMap.2 ⟨_, hmem, hi⟩))
  · intro frame hframe t ht i hi
    refine List.mem_toFinset.2 (List.mem_append_right _ (List.mem_flatMap.2 ⟨frame, hframe, ?_⟩))
    exact List.mem_flatMap.2 ⟨t, ht, hi⟩

end Weights

namespace Exploration

section Calls

variable {config : Config} {clausesOf : String → List Clause} {steps n : Nat} {slots : Finset Nat}
  {e : Exploration} {s : Substitution} {call : Call} {barrier depth inferences : Nat}
  {next : List Frame} {branches : List Branch}

/-- Branches to return to: no substitution on them is cyclic, and nothing goes on for ever after
going back, also when branches are dropped before. -/
structure Tame (config : Config) (inferences : Nat) (branches : List Branch) : Prop where
  /-- No substitution is cyclic. -/
  acyclic : ∀ branch ∈ branches, branch.substitution.Acyclic
  /-- Nothing goes on for ever after going back. -/
  falls : ∀ count, Falls config inferences (branches.drop count)

/-- The branches of a bounded search are tame. -/
theorem Bounded.tame (he : e.Bounded config slots) : Tame config e.inferences e.branches :=
  ⟨he.acyclic.branches, he.falls⟩

/-- Tame branches are tame when some of them are dropped. -/
theorem Tame.drop (h : Tame config inferences branches) (count : Nat) :
    Tame config inferences (branches.drop count) := by
  refine ⟨fun branch hmem => h.acyclic branch (List.mem_of_mem_drop hmem), fun more => ?_⟩
  rw [List.drop_drop]
  exact h.falls _

/-- A branch that is left for a goal is taken up with the goal. -/
theorem Tame.offer {target : Occurrence} (h : Tame config inferences branches) (hs : s.Acyclic)
    (hgoal : Terminates config ⟨s, .goal target barrier depth :: next, branches, inferences⟩) :
    Tame config inferences (⟨s, .goal target barrier depth next⟩ :: branches) := by
  refine ⟨List.forall_mem_cons.2 ⟨hs, h.acyclic⟩, fun count => ?_⟩
  cases count with
  | zero =>
    intro steps e hresumed
    cases hresumed
    exact hgoal
  | succ count => exact h.falls count

/-- Where everything smaller terminates, so do frames that weigh less than those that remain. -/
theorem Bounded.terminates_of_lighter {frames : List Frame} (he : e.Bounded config slots)
    (ih : ∀ e' : Exploration, e'.Bounded config slots → e'.Smaller slots e →
      e'.Terminates config)
    (hframes : ∀ frame ∈ frames, frame.Within slots)
    (hweight : Frame.weightAll e.substitution.solution frames <
      Frame.weightAll e.substitution.solution e.continuation)
    (h : Tame config e.inferences branches) :
    Terminates config ⟨e.substitution, frames, branches, e.inferences⟩ :=
  ih _ ⟨⟨he.acyclic.current, h.acyclic⟩, he.values, hframes, h.falls⟩ ⟨rfl, Or.inr ⟨rfl, hweight⟩⟩

/-- Entering a clause for a call that was counted terminates when all searches with as many
calls do. -/
theorem enter_terminates {clauses : List Clause} (hcheck : config.occursCheck = true)
    (hcalls : ∀ e' : Exploration, e'.Acyclic → e'.inferences = e.inferences →
      e'.Terminates config) (h : e.Acyclic) :
    (e.enter config steps call clauses depth next).Terminates config := by
  have hstage : (e.enter config steps call clauses depth next).Acyclic := enter_acyclic hcheck h
  rw [enter] at hstage ⊢
  cases hmatch : e.substitution.firstMatch config steps call clauses with
  | missing =>
    intro steps' e' hresumed
    have hacyclic := backtrack_acyclic hcheck h.branches hresumed
    have hcount := inferences_of_backtrack hresumed
    exact hcalls e' hacyclic hcount
  | unfinished => trivial
  | found s' body isFact untried =>
    rw [hmatch] at hstage
    exact hcalls _ hstage rfl

/-- A call of a predicate terminates when every search with one more call does, if there may be
one. -/
theorem resolve_terminates (hcheck : config.occursCheck = true)
    (hlimit : config.maxInferences = some n)
    (hcalls : inferences < n → ∀ e : Exploration, e.Acyclic → e.inferences = inferences + 1 →
      e.Terminates config)
    (h : Acyclic ⟨s, next, branches, inferences⟩) :
    (resolve config clausesOf steps call depth ⟨s, next, branches, inferences⟩).Terminates
      config := by
  rw [resolve]
  split
  · trivial
  · rw [hlimit]
    cases hmore : (some n).filter (· < inferences + 1) with
    | some limit => trivial
    | none =>
      have hlt : inferences < n := by
        simpa [Option.filter_eq_none_iff, Nat.lt_succ_iff] using hmore
      exact enter_terminates hcheck (hcalls hlt) ⟨h.current, h.branches⟩

/-- A unification binds nothing or leaves fewer slots free. -/
theorem unify_terminates {left right : Occurrence} (hcheck : config.occursCheck = true)
    (he : Bounded config slots
      ⟨s, .call ⟨"=", [left, right]⟩ barrier depth :: next, branches, inferences⟩)
    (ih : ∀ e' : Exploration, e'.Bounded config slots →
      e'.Smaller slots ⟨s, .call ⟨"=", [left, right]⟩ barrier depth :: next, branches, inferences⟩ →
      e'.Terminates config) :
    (perform config clausesOf steps (.unify left right) barrier depth
      ⟨s, next, branches, inferences⟩).Terminates config := by
  obtain ⟨hcall, hnext⟩ := List.forall_mem_cons.1 he.goals
  have hargs := Frame.within_call.1 hcall
  rw [perform, hcheck]
  cases hverdict : s.unifyPairs .byOccurrence true steps [] [(left, right)] with
  | clash => exact he.falls 0
  | unfinished => trivial
  | unified s' =>
    have hpairs : s.Confined slots [(left, right)] := by
      refine ⟨he.values.values, List.forall_mem_singleton.2 ?_⟩
      exact ⟨hargs left (by simp), hargs right (by simp)⟩
    obtain ⟨hs', hvalues', hsame | hfree⟩ := he.acyclic.current.unifyPairs hpairs hverdict
    · rw [hsame]
      exact he.terminates_of_lighter ih hnext (by simp [Frame.weight]) he.tame
    · exact ih _ ⟨⟨hs', he.tame.acyclic⟩, hvalues', hnext, he.falls⟩ ⟨rfl, Or.inl hfree⟩

/-- A call terminates when everything smaller does, and when every search with one more call
does, if there may be one. -/
theorem perform_terminates {goal : Goal} (hcheck : config.occursCheck = true)
    (hlimit : config.maxInferences = some n)
    (hcalls : inferences < n → ∀ e : Exploration, e.Acyclic → e.inferences = inferences + 1 →
      e.Terminates config)
    (he : Bounded config slots ⟨s, .call call barrier depth :: next, branches, inferences⟩)
    (ih : ∀ e' : Exploration, e'.Bounded config slots →
      e'.Smaller slots ⟨s, .call call barrier depth :: next, branches, inferences⟩ →
      e'.Terminates config)
    (hasks : Goal.Asks call goal) :
    (perform config clausesOf steps goal barrier depth ⟨s, next, branches, inferences⟩).Terminates
      config := by
  obtain ⟨hcall, hnext⟩ := List.forall_mem_cons.1 he.goals
  have hargs := Frame.within_call.1 hcall
  have hs : s.Acyclic := he.acyclic.current
  have hskip : Terminates config ⟨s, next, branches, inferences⟩ :=
    he.terminates_of_lighter ih hnext (by simp [Frame.weight]) he.tame
  -- A branch on which an argument runs in the place of the call costs less than the call.
  have hoffer : ∀ target : Occurrence, (∀ i ∈ target.term.slots, i ∈ slots) →
      2 * (target.term.assign s.solution).extent <
        (Frame.call call barrier depth).weight s.solution →
      Tame config inferences (⟨s, .goal target barrier depth next⟩ :: branches) := by
    intro target htarget hweight
    refine he.tame.offer hs (he.terminates_of_lighter ih ?_ ?_ he.tame)
    · exact List.forall_mem_cons.2 ⟨Frame.within_goal.2 htarget, hnext⟩
    · simpa [Frame.weight] using hweight
  cases hasks with
  | truth => exact hskip
  | failure => exact he.falls 0
  | cut =>
    exact he.terminates_of_lighter ih hnext (by simp [Frame.weight]) (he.tame.drop _)
  | @both left right =>
    refine he.terminates_of_lighter ih ?_ ?_ he.tame
    · simpa [Frame.within_goal] using ⟨hargs left (by simp), hargs right (by simp), hnext⟩
    · simp [Frame.weight, Term.extents]
      omega
  | @either left right =>
    refine he.terminates_of_lighter ih ?_ ?_ (hoffer right (hargs right (by simp)) ?_)
    · simpa [Frame.within_goal] using ⟨hargs left (by simp), hnext⟩
    all_goals
      simp [Frame.weight, Term.extents]
      omega
  | @ifThenElse left right condition consequent hleft =>
    have hparts := Call.within_of_ofOccurrence hleft (hargs left (by simp))
    have hextent := Call.extents_of_ofOccurrence (θ := s.solution) hleft
    simp only [List.map_cons, List.map_nil, Term.extents] at hextent
    refine he.terminates_of_lighter ih ?_ ?_ (hoffer right (hargs right (by simp)) ?_)
    · simpa [Frame.within_goal, Frame.within_cutTo] using
        ⟨hparts condition (by simp), hparts consequent (by simp), hnext⟩
    all_goals
      simp [Frame.weight, Term.extents]
      omega
  | @ifThen condition consequent =>
    refine he.terminates_of_lighter ih ?_ ?_ he.tame
    · simpa [Frame.within_goal, Frame.within_cutTo] using
        ⟨hargs condition (by simp), hargs consequent (by simp), hnext⟩
    · simp [Frame.weight, Term.extents]
      omega
  | @negation functor target hname =>
    refine he.terminates_of_lighter ih ?_ ?_ (hoffer (.whole 0 Clause.truth) ?_ ?_)
    · simpa [Frame.within_goal, Frame.within_cutTo, Frame.within_call] using
        hargs target (by simp)
    · simp [Frame.weight, Frame.weightAll, Term.extents]
      omega
    · simp [Occurrence.whole, Clause.truth]
    · simp only [Frame.weight, List.map_cons, List.map_nil, Term.extents, Occurrence.whole,
        Clause.truth, Term.assign_atom, Term.extent]
      omega
  | @call target extra =>
    obtain ⟨htarget, hextra⟩ := List.forall_mem_cons.1 hargs
    rw [perform]
    cases hcallee : Call.ofOccurrence (s.deref target) with
    | error => trivial
    | ok callee =>
      have hparts := Call.within_of_ofOccurrence hcallee (he.values.deref htarget)
      have hextent := Call.extents_of_ofOccurrence (θ := s.solution) hcallee
      rw [hs.assign_deref] at hextent
      refine he.terminates_of_lighter ih ?_ ?_ he.tame
      · refine List.forall_mem_cons.2 ⟨Frame.within_call.2 ?_, hnext⟩
        exact List.forall_mem_append.2 ⟨hparts, hextra⟩
      · simp [Frame.weight, Call.addArgs, Term.extents, Term.extents_append]
        omega
  | unify => exact unify_terminates hcheck he ih
  | @differ left right =>
    rw [perform]
    cases s.unifyPairs .byOccurrence config.occursCheck steps [] [(left, right)] with
    | unified => exact he.falls 0
    | clash => exact hskip
    | unfinished => trivial
  | predicate huser =>
    exact resolve_terminates hcheck hlimit hcalls ⟨hs, he.tame.acyclic⟩

/-- A call terminates when everything smaller does, and when every search with one more call
does, if there may be one. -/
theorem performCall_terminates (hcheck : config.occursCheck = true)
    (hlimit : config.maxInferences = some n)
    (hcalls : inferences < n → ∀ e : Exploration, e.Acyclic → e.inferences = inferences + 1 →
      e.Terminates config)
    (he : Bounded config slots ⟨s, .call call barrier depth :: next, branches, inferences⟩)
    (ih : ∀ e' : Exploration, e'.Bounded config slots →
      e'.Smaller slots ⟨s, .call call barrier depth :: next, branches, inferences⟩ →
      e'.Terminates config) :
    (performCall config clausesOf steps call barrier depth
      ⟨s, next, branches, inferences⟩).Terminates config := by
  rw [performCall]
  cases hgoal : Goal.ofCall call with
  | error => trivial
  | ok goal => exact perform_terminates hcheck hlimit hcalls he ih (Goal.asks_of_ofCall hgoal)

/-- So does any step. -/
theorem advance_terminates (hcheck : config.occursCheck = true)
    (hlimit : config.maxInferences = some n)
    (hcalls : e.inferences < n → ∀ e' : Exploration, e'.Acyclic →
      e'.inferences = e.inferences + 1 → e'.Terminates config)
    (he : e.Bounded config slots)
    (ih : ∀ e' : Exploration, e'.Bounded config slots → e'.Smaller slots e →
      e'.Terminates config) : (e.advance config clausesOf steps).Terminates config := by
  obtain ⟨s, continuation, branches, inferences⟩ := e
  match continuation with
  | [] => exact he.falls 0
  | .cutTo height :: next =>
    have hnext := (List.forall_mem_cons.1 he.goals).2
    exact he.terminates_of_lighter ih hnext (by simp [Frame.weight]) (he.tame.drop _)
  | .call call barrier depth :: next => exact performCall_terminates hcheck hlimit hcalls he ih
  | .goal target barrier depth :: next =>
    rw [advance]
    cases hcall : Call.ofOccurrence (s.deref target) with
    | error => trivial
    | ok call =>
      obtain ⟨hacyclic, hvalues, hgoals, hfalls⟩ := he
      obtain ⟨htarget, hnext⟩ := List.forall_mem_cons.1 hgoals
      have hargs : (Frame.call call barrier depth).Within slots := by
        refine Frame.within_call.2 (Call.within_of_ofOccurrence hcall ?_)
        exact hvalues.deref (Frame.within_goal.1 htarget)
      have hweight : (Frame.call call barrier depth).weight s.solution ≤
          (Frame.goal target barrier depth).weight s.solution :=
        Frame.weight_call_le hacyclic.current hcall
      refine performCall_terminates hcheck hlimit hcalls
        ⟨⟨hacyclic.current, hacyclic.branches⟩, hvalues, List.forall_mem_cons.2 ⟨hargs, hnext⟩,
          hfalls⟩ fun e' he' hsmaller => ih e' he' ⟨hsmaller.1, ?_⟩
      rcases hsmaller.2 with hfree | ⟨hsame, hless⟩
      · exact Or.inl hfree
      · refine Or.inr ⟨hsame, ?_⟩
        simp only [Frame.weightAll_cons] at hless ⊢
        omega

/-- A search terminates when going back does, and every search with one more call. -/
theorem terminates_of_falls (hcheck : config.occursCheck = true)
    (hlimit : config.maxInferences = some n)
    (hcalls : e.inferences < n → ∀ e' : Exploration, e'.Acyclic →
      e'.inferences = e.inferences + 1 → e'.Terminates config)
    (h : e.Acyclic) (hfalls : ∀ count, Falls config e.inferences (e.branches.drop count)) :
    e.Terminates config := by
  obtain ⟨slots, hvalues, hgoals⟩ := Frame.exists_within e.substitution e.continuation
  have he : e.Bounded config slots := ⟨h, hvalues, hgoals, hfalls⟩
  clear hvalues hgoals hfalls h
  induction e using (wellFounded_smaller slots).induction with
  | h e ih =>
    refine terminates_of_advance fun clausesOf steps =>
      advance_terminates hcheck hlimit hcalls he fun e' he' hsmaller => ?_
    exact ih e' hsmaller (by rwa [hsmaller.1]) he'

/-- Going back terminates when every search with one more call does. -/
theorem falls_of_acyclic (hcheck : config.occursCheck = true)
    (hlimit : config.maxInferences = some n)
    (hcalls : inferences < n → ∀ e : Exploration, e.Acyclic → e.inferences = inferences + 1 →
      e.Terminates config)
    (h : ∀ branch ∈ branches, branch.substitution.Acyclic) (count : Nat) :
    Falls config inferences (branches.drop count) := by
  induction branches generalizing count with
  | nil =>
    rw [List.drop_nil]
    intro steps e hresumed
    cases hresumed
  | cons branch branches ih =>
    obtain ⟨hbranch, hrest⟩ := List.forall_mem_cons.1 h
    have hbelow := ih hrest
    cases count with
    | succ count => exact hbelow count
    | zero =>
      match branch with
      | ⟨s, .goal target barrier depth next⟩ =>
        intro steps e hresumed
        cases hresumed
        exact terminates_of_falls hcheck hlimit hcalls ⟨hbranch, hrest⟩ hbelow
      | ⟨s, .clauses call untried depth next⟩ =>
        -- Each time the branch is taken up, fewer clauses are left.
        induction hlength : untried.length using Nat.strongRecOn generalizing untried with
        | ind length ihlength =>
          have hafter : ∀ untried', untried'.length < untried.length → ∀ count,
              Falls config inferences ((⟨s, .clauses call untried' depth next⟩ :: branches :
                List Branch).drop count) := by
            intro untried' hlt count
            cases count with
            | zero => exact ihlength _ (hlength ▸ hlt) untried' (by simpa using h) hbranch rfl
            | succ count => exact hbelow count
          intro steps e hresumed
          have hstage : Stage.Acyclic (enter config steps call untried depth next
              ⟨s, next, branches, inferences⟩) := enter_acyclic hcheck ⟨hbranch, hrest⟩
          rw [List.drop_zero, backtrack] at hresumed
          rw [enter] at hresumed hstage
          cases hmatch : s.firstMatch config steps call untried with
          | missing =>
            simp only [hmatch] at hresumed
            exact hbelow 0 steps e hresumed
          | unfinished => simp [hmatch] at hresumed
          | found s' body isFact untried' =>
            simp only [hmatch] at hresumed hstage
            cases hresumed
            have hlt := Substitution.length_untried_lt hmatch
            refine terminates_of_falls hcheck hlimit hcalls hstage ?_
            dsimp only
            split
            · exact hbelow
            · exact hafter untried' hlt

/-- With a bound on the number of calls, a search with the occurs check terminates. -/
theorem terminates (hcheck : config.occursCheck = true) (hlimit : config.maxInferences = some n)
    (h : e.Acyclic) : e.Terminates config := by
  induction hmore : n - e.inferences using Nat.strongRecOn generalizing e with
  | ind more ih =>
    have hcalls : e.inferences < n → ∀ e' : Exploration, e'.Acyclic →
        e'.inferences = e.inferences + 1 → e'.Terminates config := by
      intro hlt e' hacyclic hcount
      exact ih (n - e'.inferences) (by omega) hacyclic rfl
    exact terminates_of_falls hcheck hlimit hcalls h
      (falls_of_acyclic hcheck hlimit hcalls h.branches)

end Calls

end Exploration

end ClauseResolution
