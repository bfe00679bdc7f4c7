import ClauseResolution.Proofs.Search.Derivation
import ClauseResolution.Proofs.Search.Exploration
import ClauseResolution.Proofs.Unification.Termination

/-!
# Invariants of branches

Much of what holds throughout a search holds along each branch by itself: a property of
its substitution together with a property of the terms in its goals, with a parameter that
changes when a clause is entered. For such a property five things are to be shown, about
arguments, about following variables, about unifications, about entering a clause and
about the atom of truth. Then it holds of the present branch and of all branches that are
left, after every step and after going back.
-/

namespace ClauseResolution

/-- The terms of a frame. -/
def Frame.terms : Frame → List Term
  | .goal target _ _ => [target.term]
  | .call callee _ _ => callee.args.map Occurrence.term
  | .cutTo _ => []

/-- The goals that remain when a branch is taken up, the one that is retried first. -/
def Alternative.frames : Alternative → List Frame
  | .clauses call _ depth next => .call call 0 depth :: next
  | .goal target barrier depth next => .goal target barrier depth :: next

/-- The clauses left to be tried on a branch. -/
def Alternative.untried : Alternative → List Clause
  | .clauses _ untried _ _ => untried
  | .goal .. => []

/-- A property of the substitution of a branch and of the terms that are reached from its
goals, which unification and the clauses that are entered keep. -/
structure BranchInvariant (config : Config) where
  /-- What the property speaks of besides; it changes when a clause is entered. -/
  Index : Type
  /-- The substitution has the property. -/
  Suits : Index → Substitution → Prop
  /-- A term has the property. -/
  Has : Index → Term → Prop
  /-- A clause may be entered. -/
  Admits : Clause → Prop
  /-- Truth has the property. -/
  truth : ∀ i, Has i Clause.truth
  /-- The arguments of a term have the property. -/
  arg : ∀ {i : Index} {t u : Term}, Has i u → t ∈ u.args → Has i t
  /-- What is followed from a term has the property. -/
  deref : ∀ {i : Index} {s : Substitution} {o : Occurrence}, Suits i s → Has i o.term →
    Has i (s.deref o).term
  /-- Unification keeps the property. -/
  unify : ∀ {i : Index} {s s' : Substitution} {steps : Nat}
    {pairs : List (Occurrence × Occurrence)}, Suits i s →
    (∀ p ∈ pairs, Has i p.1.term ∧ Has i p.2.term) →
    s.unifyPairs .byOccurrence config.occursCheck steps [] pairs = .unified s' → Suits i s'
  /-- Entering a clause keeps the property. -/
  enter : ∀ {i : Index} {s : Substitution} {clause : Clause}, Suits i s → Admits clause →
    ∃ j, Suits j (s.allocate clause.varCount) ∧ (∀ t, Has i t → Has j t) ∧
      Has j (clause.rename s.context).head.term ∧ Has j (clause.rename s.context).body.term

namespace BranchInvariant

variable {config : Config} (inv : BranchInvariant config)

/-- A substitution and the terms of the goals after it have the property. -/
def Carried (s : Substitution) (frames : List Frame) : Prop :=
  ∃ i, inv.Suits i s ∧ ∀ frame ∈ frames, ∀ t ∈ frame.terms, inv.Has i t

/-- A branch has the property, and the clauses left to be tried may be entered. -/
structure OfBranch (branch : Branch) : Prop where
  /-- The branch has the property. -/
  carried : inv.Carried branch.substitution branch.alternative.frames
  /-- The clauses may be entered. -/
  untried : ∀ clause ∈ branch.alternative.untried, inv.Admits clause

/-- The present branch and those that are left have the property. -/
structure OfExploration (e : Exploration) : Prop where
  /-- The present branch has the property. -/
  current : inv.Carried e.substitution e.continuation
  /-- So has each branch that is left. -/
  branches : ∀ branch ∈ e.branches, inv.OfBranch branch

/-- What a step leads to has the property. -/
def OfStage : Stage → Prop
  | .proceed e | .backtrack e | .solution e => inv.OfExploration e
  | .error _ | .unfinished => True

variable {inv} {s s' : Substitution} {frame : Frame} {next : List Frame} {call : Call}
  {barrier depth steps : Nat}

namespace Carried

/-- The frames after the first one. -/
theorem tail (h : inv.Carried s (frame :: next)) : inv.Carried s next := by
  obtain ⟨i, hs, hframes⟩ := h
  exact ⟨i, hs, (List.forall_mem_cons.1 hframes).2⟩

/-- A frame is replaced by frames whose terms are reached from its own. -/
theorem replace (h : inv.Carried s (frame :: next)) (front : List Frame)
    (hfront : ∀ i, inv.Suits i s → (∀ t ∈ frame.terms, inv.Has i t) →
      ∀ f ∈ front, ∀ t ∈ f.terms, inv.Has i t) : inv.Carried s (front ++ next) := by
  obtain ⟨i, hs, hframes⟩ := h
  obtain ⟨hframe, hnext⟩ := List.forall_mem_cons.1 hframes
  exact ⟨i, hs, List.forall_mem_append.2 ⟨hfront i hs hframe, hnext⟩⟩

/-- Goals among the arguments of a call take its place. -/
theorem goals (h : inv.Carried s (.call call barrier depth :: next)) (front : List Frame)
    (hfront : ∀ f ∈ front, f.terms ⊆ call.args.map Occurrence.term) :
    inv.Carried s (front ++ next) :=
  h.replace front fun _ _ hterms f hf _ ht => hterms _ (hfront f hf ht)

/-- The call that a goal is followed to takes its place. -/
theorem followed {target : Occurrence} (h : inv.Carried s (.goal target barrier depth :: next))
    (hcall : Call.ofOccurrence (s.deref target) = .ok call) :
    inv.Carried s (.call call barrier depth :: next) :=
  h.replace [.call call barrier depth] fun _ hs hterms =>
    List.forall_mem_singleton.2 (List.forall_mem_map.2 fun _ harg =>
      inv.arg (inv.deref hs (List.forall_mem_singleton.1 hterms)) (Call.term_mem_args hcall harg))

/-- The parts of an if-then that is an argument of a call take its place. -/
theorem parts (h : inv.Carried s (.call call barrier depth :: next)) {left : Occurrence}
    {part : Call} (hleft : left ∈ call.args) (hpart : Call.ofOccurrence left = .ok part)
    (front : List Frame) (hfront : ∀ f ∈ front, f.terms ⊆ part.args.map Occurrence.term) :
    inv.Carried s (front ++ next) := by
  refine h.replace front fun i _ hterms f hf t ht => ?_
  obtain ⟨arg, harg, rfl⟩ := List.mem_map.1 (hfront f hf ht)
  exact inv.arg (hterms _ (List.mem_map_of_mem hleft)) (Call.term_mem_args hpart harg)

end Carried

/-- A call that is unified with the head of a clause: the property holds with the goals
after the call, and with the body before them. -/
theorem Carried.firstMatch {clauses untried : List Clause} {body : Occurrence} {isFact : Bool}
    (h : inv.Carried s (.call call barrier depth :: next))
    (hclauses : ∀ clause ∈ clauses, inv.Admits clause)
    (hfound : s.firstMatch config steps call clauses = .found s' body isFact untried)
    (height inner : Nat) :
    inv.Carried s' (if isFact then next else .goal body height inner :: next) ∧
      ∀ clause ∈ untried, inv.Admits clause := by
  obtain ⟨skipped, clause, rfl, hhead, rfl, rfl⟩ :=
    Substitution.exists_of_firstMatch_eq_found hfound
  obtain ⟨hclause, huntried⟩ := List.forall_mem_cons.1 (List.forall_mem_append.1 hclauses).2
  obtain ⟨i, hs, hframes⟩ := h
  obtain ⟨hcall, hnext⟩ := List.forall_mem_cons.1 hframes
  obtain ⟨j, hsj, hij, hheadHas, hbody⟩ := inv.enter hs hclause
  have hunified : inv.Suits j s' := by
    rw [Substitution.unifyHead] at hhead
    split at hhead
    · split at hhead
      · refine inv.unify hsj (fun p hp => ?_) hhead
        obtain ⟨hfst, hsnd⟩ := List.of_mem_zip hp
        exact ⟨hij _ (hcall _ (List.mem_map_of_mem hfst)),
          inv.arg hheadHas (Occurrence.term_mem_args hsnd)⟩
      · cases hhead
    · cases hhead
  have hlater : ∀ frame ∈ next, ∀ t ∈ frame.terms, inv.Has j t :=
    fun frame hframe t ht => hij t (hnext frame hframe t ht)
  refine ⟨⟨j, hunified, ?_⟩, huntried⟩
  split
  · exact hlater
  · exact List.forall_mem_cons.2 ⟨List.forall_mem_singleton.2 hbody, hlater⟩

variable {e : Exploration} {clausesOf : String → List Clause}

/-- Dropping branches keeps the property. -/
theorem OfExploration.cut (h : inv.OfExploration e) (height : Nat) :
    inv.OfExploration (e.cut height) :=
  ⟨h.current, fun branch hmem => h.branches branch (List.mem_of_mem_drop hmem)⟩

/-- Entering a clause keeps the property. -/
theorem ofStage_enter {clauses : List Clause}
    (h : inv.Carried e.substitution (.call call barrier depth :: next))
    (he : inv.OfExploration e) (hclauses : ∀ clause ∈ clauses, inv.Admits clause) :
    inv.OfStage (e.enter config steps call clauses depth next) := by
  rw [Exploration.enter]
  cases hmatch : e.substitution.firstMatch config steps call clauses with
  | missing => exact he
  | unfinished => trivial
  | found s' body isFact untried =>
    obtain ⟨hcurrent, huntried⟩ := h.firstMatch hclauses hmatch e.branches.length (depth + 1)
    refine ⟨hcurrent, ?_⟩
    dsimp only
    split
    · exact he.branches
    · refine List.forall_mem_cons.2 ⟨⟨h.goals [.call call 0 depth] ?_, huntried⟩, he.branches⟩
      simp [Frame.terms]

/-- Doing what a call asks for keeps the property. -/
theorem ofStage_perform {goal : Goal}
    (hclauses : ∀ key, ∀ clause ∈ clausesOf key, inv.Admits clause)
    (hasks : Goal.Asks call goal)
    (h : inv.Carried e.substitution (.call call barrier depth :: e.continuation))
    (hbranches : ∀ branch ∈ e.branches, inv.OfBranch branch) :
    inv.OfStage (e.perform config clausesOf steps goal barrier depth) := by
  have he : inv.OfExploration e := ⟨h.tail, hbranches⟩
  cases hasks with
  | truth | failure => exact he
  | cut => exact he.cut barrier
  | @both left right =>
    refine ⟨h.goals [.goal left barrier depth, .goal right barrier depth] ?_, hbranches⟩
    simp [Frame.terms]
  | @either left right =>
    have hright := h.goals [.goal right barrier depth] (by simp [Frame.terms])
    refine ⟨h.goals [.goal left barrier depth] (by simp [Frame.terms]), ?_⟩
    exact List.forall_mem_cons.2 ⟨⟨hright, by simp [Alternative.untried]⟩, hbranches⟩
  | @ifThenElse left right condition consequent hleft =>
    have hright := h.goals [.goal right barrier depth] (by simp [Frame.terms])
    refine ⟨h.parts (List.mem_cons_self) hleft [.goal condition (e.branches.length + 1) depth,
      .cutTo e.branches.length, .goal consequent barrier depth] (by simp [Frame.terms]), ?_⟩
    exact List.forall_mem_cons.2 ⟨⟨hright, by simp [Alternative.untried]⟩, hbranches⟩
  | @ifThen condition consequent =>
    refine ⟨h.goals [.goal condition e.branches.length depth, .cutTo e.branches.length,
      .goal consequent barrier depth] ?_, hbranches⟩
    simp [Frame.terms]
  | @negation functor target hname =>
    have htruth : inv.Carried e.substitution
        (.goal (.whole 0 Clause.truth) barrier depth :: e.continuation) :=
      h.replace [_] fun i _ _ => by simpa [Frame.terms, Occurrence.whole] using inv.truth i
    have htarget := h.goals [.goal target (e.branches.length + 1) depth,
      .cutTo e.branches.length, .call ⟨"fail", []⟩ barrier depth] (by simp [Frame.terms])
    obtain ⟨i, hs, hframes⟩ := htarget
    refine ⟨⟨i, hs, (List.forall_mem_append.1 hframes).1⟩, ?_⟩
    exact List.forall_mem_cons.2 ⟨⟨htruth, by simp [Alternative.untried]⟩, hbranches⟩
  | @call target extra =>
    rw [Exploration.perform]
    cases hcallee : Call.ofOccurrence (e.substitution.deref target) with
    | error => trivial
    | ok callee =>
      refine ⟨h.replace [.call (callee.addArgs extra) e.branches.length depth]
        fun i hs hterms => List.forall_mem_singleton.2 (List.forall_mem_map.2 ?_), hbranches⟩
      have hargs := List.forall_mem_map.1 hterms
      obtain ⟨htarget, hextra⟩ := List.forall_mem_cons.1 hargs
      exact List.forall_mem_append.2 ⟨fun arg harg =>
        inv.arg (inv.deref hs htarget) (Call.term_mem_args hcallee harg), hextra⟩
  | @unify left right =>
    rw [Exploration.perform]
    cases hverdict : e.substitution.unifyPairs .byOccurrence config.occursCheck steps []
      [(left, right)] with
    | clash => exact he
    | unfinished => trivial
    | unified s' =>
      obtain ⟨i, hs, hframes⟩ := h
      obtain ⟨hterms, hnext⟩ := List.forall_mem_cons.1 hframes
      have hpair : inv.Has i left.term ∧ inv.Has i right.term := by
        simpa [Frame.terms] using hterms
      exact ⟨⟨i, inv.unify hs (List.forall_mem_singleton.2 hpair) hverdict, hnext⟩, hbranches⟩
  | @differ left right =>
    rw [Exploration.perform]
    cases e.substitution.unifyPairs .byOccurrence config.occursCheck steps [] [(left, right)] with
    | unified | clash => exact he
    | unfinished => trivial
  | predicate huser =>
    rw [Exploration.perform, Exploration.resolve]
    split
    · trivial
    · split
      · trivial
      · exact ofStage_enter h ⟨h.tail, hbranches⟩ (hclauses call.indicator)

/-- Doing what a call asks for keeps the invariant. -/
theorem ofStage_performCall (hclauses : ∀ key, ∀ clause ∈ clausesOf key, inv.Admits clause)
    (h : inv.Carried e.substitution (.call call barrier depth :: e.continuation))
    (hbranches : ∀ branch ∈ e.branches, inv.OfBranch branch) :
    inv.OfStage (e.performCall config clausesOf steps call barrier depth) := by
  rw [Exploration.performCall]
  cases hgoal : Goal.ofCall call with
  | error => trivial
  | ok goal => exact ofStage_perform hclauses (Goal.asks_of_ofCall hgoal) h hbranches

/-- A step keeps the property. -/
theorem ofStage_advance (hclauses : ∀ key, ∀ clause ∈ clausesOf key, inv.Admits clause)
    (h : inv.OfExploration e) : inv.OfStage (e.advance config clausesOf steps) := by
  obtain ⟨s, continuation, branches, inferences⟩ := e
  obtain ⟨hcurrent, hbranches⟩ := h
  dsimp only at hcurrent hbranches
  match continuation with
  | [] => exact ⟨hcurrent, hbranches⟩
  | .cutTo height :: next =>
    have hnext : inv.OfExploration ⟨s, next, branches, inferences⟩ := ⟨hcurrent.tail, hbranches⟩
    exact hnext.cut height
  | .call call barrier depth :: next => exact ofStage_performCall hclauses hcurrent hbranches
  | .goal target barrier depth :: next =>
    rw [Exploration.advance]
    cases hcall : Call.ofOccurrence (s.deref target) with
    | error => trivial
    | ok call => exact ofStage_performCall hclauses (hcurrent.followed hcall) hbranches

/-- Whatever is taken up again has the property. -/
theorem of_backtrack {inferences : Nat} {branches : List Branch}
    (h : ∀ branch ∈ branches, inv.OfBranch branch)
    (hresumed : Exploration.backtrack config steps inferences branches = .resumed e) :
    inv.OfExploration e := by
  obtain ⟨skipped, branch, rest, rfl, htakes⟩ := Exploration.exists_takesUp_of_backtrack hresumed
  obtain ⟨hbranch, hrest⟩ := List.forall_mem_cons.1 (List.forall_mem_append.1 h).2
  cases htakes with
  | goal => exact ⟨hbranch.carried, hrest⟩
  | @clauses s call untried depth next _ henter =>
    have he : inv.OfExploration ⟨s, next, rest, inferences⟩ := ⟨hbranch.carried.tail, hrest⟩
    have hstage : inv.OfStage
        (Exploration.enter config steps call untried depth next ⟨s, next, rest, inferences⟩) :=
      ofStage_enter hbranch.carried he hbranch.untried
    rwa [henter] at hstage

end BranchInvariant

end ClauseResolution
