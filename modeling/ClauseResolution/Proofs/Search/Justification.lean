import ClauseResolution.Proofs.Clause.Instance
import ClauseResolution.Proofs.Search.Derivation
import ClauseResolution.Proofs.Search.Exploration
import ClauseResolution.Proofs.Unification.MostGeneral

/-!
# What remains justifies the query

In every state of a checked search the goals that remain are all that a derivation of the
query lacks: whatever assignment satisfies the current substitution and makes the
remaining goals derivable makes the query derivable. The same holds of every branch to
return to. Each step keeps this, since it replaces a goal by goals from which the goal
follows, and a binding only says more. At a solution no goal remains.
-/

namespace ClauseResolution

/-- The terms of a frame have named variables with slots, and no number that is not a
number. -/
def Frame.Plain : Frame → Prop
  | .goal target _ _ => target.term.isPlain
  | .call callee _ _ => ∀ arg ∈ callee.args, arg.term.isPlain
  | .cutTo _ => True

/-- The goal of a frame is derivable. -/
def Frame.Holds (program : Set Clause) (θ : Assignment) : Frame → Prop
  | .goal target _ _ => Derivable program (target.term.assign θ)
  | .call callee _ _ => Derivable program (callee.assign θ)
  | .cutTo _ => True

/-- The query is derivable under every assignment that satisfies the substitution and
makes all frames derivable. -/
structure Reduces (program : Set Clause) (query : Term) (s : Substitution) (frames : List Frame) :
    Prop where
  /-- The substitution is regular. -/
  regular : s.Regular
  /-- The frames are plain. -/
  plain : ∀ frame ∈ frames, frame.Plain
  /-- The frames are all that the query lacks. -/
  derivable : ∀ θ : Assignment, θ.NaNFree → θ.Satisfies s →
    (∀ frame ∈ frames, frame.Holds program θ) → Derivable program (query.assign θ)

/-- What is left on a branch is all that the query lacks there. -/
def Branch.Justified (program : Set Clause) (query : Term) (branch : Branch) : Prop :=
  match branch.alternative with
  | .goal goal barrier depth next =>
    Reduces program query branch.substitution (.goal goal barrier depth :: next)
  | .clauses call untried depth next =>
    Reduces program query branch.substitution (.call call 0 depth :: next) ∧
      isControl call.functor call.args.length = false ∧ ∀ clause ∈ untried, clause ∈ program

/-- What remains now and on every branch is all that the query lacks. -/
structure Exploration.Justified (program : Set Clause) (query : Term) (e : Exploration) :
    Prop where
  /-- The goals that remain are all that the query lacks. -/
  current : Reduces program query e.substitution e.continuation
  /-- So are those of each branch. -/
  branches : ∀ branch ∈ e.branches, branch.Justified program query

/-- What a step leads to is justified; at a solution the query lacks nothing. -/
def Stage.Justified (program : Set Clause) (query : Term) : Stage → Prop
  | .proceed e => e.Justified program query
  | .solution e => Reduces program query e.substitution [] ∧
      ∀ branch ∈ e.branches, branch.Justified program query
  | .backtrack e => ∀ branch ∈ e.branches, branch.Justified program query
  | .error _ | .unfinished => True

section Steps

variable {program : Set Clause} {query : Term} {s s' : Substitution} {frame : Frame}
  {front next : List Frame} {call : Call} {barrier depth steps : Nat} {config : Config}

/-- A frame is replaced by frames from which it follows. -/
theorem Reduces.replace (h : Reduces program query s (frame :: next)) (hs : s'.Regular)
    (hplain : ∀ f ∈ front, f.Plain)
    (hfollows : ∀ θ : Assignment, θ.NaNFree → θ.Satisfies s' →
      (∀ f ∈ front, f.Holds program θ) → θ.Satisfies s ∧ frame.Holds program θ) :
    Reduces program query s' (front ++ next) := by
  obtain ⟨_, hnext⟩ := List.forall_mem_cons.1 h.plain
  refine ⟨hs, List.forall_mem_append.2 ⟨hplain, hnext⟩, fun θ hfree hsatisfies hholds => ?_⟩
  obtain ⟨hfront, hrest⟩ := List.forall_mem_append.1 hholds
  obtain ⟨hsatisfies, hframe⟩ := hfollows θ hfree hsatisfies hfront
  exact h.derivable θ hfree hsatisfies (List.forall_mem_cons.2 ⟨hframe, hrest⟩)

/-- A frame that follows from the present substitution is dropped or replaced without a
new binding. -/
theorem Reduces.rewrite (h : Reduces program query s (frame :: next))
    (hplain : ∀ f ∈ front, f.Plain)
    (hfollows : ∀ θ : Assignment, θ.NaNFree → θ.Satisfies s →
      (∀ f ∈ front, f.Holds program θ) → frame.Holds program θ) :
    Reduces program query s (front ++ next) :=
  h.replace h.regular hplain fun θ hfree hsatisfies hfront =>
    ⟨hsatisfies, hfollows θ hfree hsatisfies hfront⟩

/-- Allocating slots binds nothing. -/
theorem Substitution.Regular.allocate (h : s.Regular) (count : Nat) : (s.allocate count).Regular :=
  ⟨h.acyclic, h.nodup, h.plain⟩

/-- The body of a fact is `true`. -/
theorem Clause.body_of_isFact (clause : Clause) (h : clause.isFact = true) :
    clause.body = .atom "true" := by
  rw [isFact] at h
  cases hbody : clause.body <;> simp_all [Term.isAtomNamed]

/-- A call that was unified with a head becomes the same as the head. -/
theorem Substitution.same_of_unifyHead {head : Occurrence} (hcheck : config.occursCheck = true)
    (h : s.Regular) (hcall : ∀ arg ∈ call.args, arg.term.isPlain) (hhead : head.term.isPlain)
    (hunified : s.unifyHead config steps call head = .unified s') :
    s'.Regular ∧ ∀ θ : Assignment, θ.NaNFree → θ.Satisfies s' →
      θ.Satisfies s ∧ (call.assign θ).same (head.term.assign θ) := by
  rw [unifyHead, hcheck] at hunified
  cases hterm : head.term with
  | atom | number | var => simp [hterm] at hunified
  | compound functor args varCount =>
    simp only [hterm] at hunified
    split at hunified
    · next hfits =>
      have hplain : PlainPairs (call.args.zip head.args) := by
        intro p hp
        obtain ⟨hfst, hsnd⟩ := List.of_mem_zip hp
        exact ⟨hcall _ hfst, Term.isPlain_of_mem_args hhead (Occurrence.term_mem_args hsnd)⟩
      have hsolves : (s.unifyPairs .byOccurrence true steps [] (call.args.zip head.args)).Solves s
        (call.args.zip head.args) := solves_unifyPairs h hplain steps
      rw [hunified] at hsolves
      obtain ⟨hregular, _, _, hiff⟩ := hsolves
      refine ⟨hregular, fun θ hfree hsatisfies => ?_⟩
      obtain ⟨hsatisfies, hequates⟩ := (hiff θ hfree).1 hsatisfies
      have hlength : call.args.length = head.args.length := by
        rw [Occurrence.length_args, hterm]
        exact hfits.2
      rw [Assignment.equates_zip_iff hlength, Occurrence.map_assign_args, hterm] at hequates
      refine ⟨hsatisfies, ?_⟩
      rw [Term.assign_compound]
      exact Term.same_compound.2 ⟨hfits.1, hequates⟩
    · cases hunified

/-- The clause that is entered leaves its body to be done, and nothing if it is a fact. -/
theorem Substitution.reduces_of_firstMatch {clauses untried : List Clause} {body : Occurrence}
    {isFact : Bool} (hcheck : config.occursCheck = true)
    (hprogram : ∀ clause ∈ program, clause.Numbered)
    (huser : isControl call.functor call.args.length = false)
    (h : Reduces program query s (.call call barrier depth :: next))
    (hclauses : ∀ clause ∈ clauses, clause ∈ program)
    (hfound : s.firstMatch config steps call clauses = .found s' body isFact untried)
    (height inner : Nat) :
    Reduces program query s' (if isFact then next else .goal body height inner :: next) ∧
      ∀ clause ∈ untried, clause ∈ program := by
  obtain ⟨skipped, clause, rfl, hhead, rfl, rfl⟩ := exists_of_firstMatch_eq_found hfound
  obtain ⟨hclause, huntried⟩ := List.forall_mem_cons.1 (List.forall_mem_append.1 hclauses).2
  refine ⟨?_, huntried⟩
  have hnumbered := hprogram clause hclause
  obtain ⟨hheadPlain, hheadAssign⟩ := hnumbered.rename_head s.context
  obtain ⟨hbodyPlain, hbodyAssign⟩ := hnumbered.rename_body s.context
  have hcall := h.plain _ List.mem_cons_self
  obtain ⟨hregular, hsame⟩ := same_of_unifyHead hcheck (h.regular.allocate clause.varCount)
    hcall hheadPlain hhead
  -- The call is an instance of the head, so it follows from that instance of the body.
  have hfollows : ∀ θ : Assignment, θ.NaNFree → θ.Satisfies s' →
      Derivable program (clause.body.assign (clause.values s.context.top θ)) →
      θ.Satisfies s ∧ Derivable program (call.assign θ) := by
    intro θ hfree hsatisfies hderivable
    obtain ⟨hsatisfies, hinstance⟩ := hsame θ hfree hsatisfies
    rw [hheadAssign θ] at hinstance
    refine ⟨hsatisfies, .predicate ?_ hclause hinstance hderivable⟩
    rwa [List.length_map]
  split
  · next hfact =>
    change Reduces program query s' ([] ++ next)
    refine h.replace hregular (by simp) fun θ hfree hsatisfies _ => ?_
    refine hfollows θ hfree hsatisfies ?_
    rw [clause.body_of_isFact hfact]
    exact .atom .truth
  · change Reduces program query s'
      ([.goal (clause.rename s.context).body height inner] ++ next)
    refine h.replace hregular (List.forall_mem_singleton.2 hbodyPlain)
      fun θ hfree hsatisfies hholds => hfollows θ hfree hsatisfies ?_
    rw [← hbodyAssign θ]
    exact hholds _ List.mem_cons_self

/-- The arguments of a call that is read off a plain occurrence are plain. -/
theorem Call.isPlain_of_ofOccurrence {o : Occurrence} (hcall : Call.ofOccurrence o = .ok call)
    (h : o.term.isPlain) : ∀ arg ∈ call.args, arg.term.isPlain :=
  fun _ harg => Term.isPlain_of_mem_args h (Call.term_mem_args hcall harg)

/-- Adding arguments to a call is adding them to the term it is read off. -/
theorem Call.addArgs_assign (θ : Assignment) {o : Occurrence}
    (hcall : Call.ofOccurrence o = .ok call) (extra : List Occurrence) :
    (o.term.assign θ).addArgs (extra.map fun arg => arg.term.assign θ) =
      some ((call.addArgs extra).assign θ) := by
  obtain ⟨text, node, term⟩ := o
  cases term with
  | atom name =>
    cases hcall
    rfl
  | compound functor args n =>
    cases hcall
    rw [Term.assign_compound, Call.assign, Call.addArgs, List.map_append,
      Occurrence.map_assign_args]
    rfl
  | number | var => cases hcall

/-- A goal is replaced by the call that is read off what it stands for. -/
theorem Reduces.of_goal {target : Occurrence}
    (h : Reduces program query s (.goal target barrier depth :: next))
    (hcall : Call.ofOccurrence (s.deref target) = .ok call) :
    Reduces program query s (.call call barrier depth :: next) := by
  have htarget : target.term.isPlain := h.plain _ List.mem_cons_self
  change Reduces program query s ([.call call barrier depth] ++ next)
  refine h.rewrite ?_ fun θ hfree hsatisfies hholds => ?_
  · have hderef := h.regular.isPlain_deref htarget
    exact List.forall_mem_singleton.2 (Call.isPlain_of_ofOccurrence hcall hderef)
  · -- What the goal stands for is the same goal under the assignment.
    have hderivable := Call.derivable_of_ofOccurrence hcall (hholds _ List.mem_cons_self)
    have hsame := h.regular.same_deref hfree hsatisfies htarget
    exact hderivable.of_same (Term.same_symm hsame)

/-- A call with further arguments is replaced by the call they are added to. -/
theorem Reduces.of_call {target : Occurrence} {extra : List Occurrence} {callee : Call}
    (h : Reduces program query s (.call ⟨"call", target :: extra⟩ barrier depth :: next))
    (hcallee : Call.ofOccurrence (s.deref target) = .ok callee) (height : Nat) :
    Reduces program query s (.call (callee.addArgs extra) height depth :: next) := by
  have hplain : ∀ arg ∈ target :: extra, arg.term.isPlain := h.plain _ List.mem_cons_self
  obtain ⟨htarget, hextra⟩ := List.forall_mem_cons.1 hplain
  change Reduces program query s ([.call (callee.addArgs extra) height depth] ++ next)
  refine h.rewrite ?_ fun θ hfree hsatisfies hholds => ?_
  · have hargs := Call.isPlain_of_ofOccurrence hcallee (h.regular.isPlain_deref htarget)
    exact List.forall_mem_singleton.2 (List.forall_mem_append.2 ⟨hargs, hextra⟩)
  · have hself : List.Forall₂ (fun a b => (a.same b : Prop))
        (extra.map fun arg => arg.term.assign θ) (extra.map fun arg => arg.term.assign θ) := by
      refine List.forall₂_same.2 fun t ht => ?_
      obtain ⟨arg, harg, rfl⟩ := List.mem_map.1 ht
      exact Term.assign_same_self hfree (Term.isNaNFree_of_isPlain (hextra arg harg))
    have hsame := h.regular.same_deref hfree hsatisfies htarget
    obtain ⟨goal, hgoal, hsame'⟩ := Derivable.addArgs_same (Term.same_symm hsame) hself
      (Call.addArgs_assign θ hcallee extra)
    exact .call hgoal (Derivable.of_same (hholds _ List.mem_cons_self) hsame')

/-- An equation is replaced by the bindings that solve it. -/
theorem Reduces.of_unify {left right : Occurrence}
    (h : Reduces program query s (.call ⟨"=", [left, right]⟩ barrier depth :: next))
    (hunified : s.unifyPairs .byOccurrence true steps [] [(left, right)] = .unified s') :
    Reduces program query s' next := by
  have hplain : ∀ arg ∈ [left, right], arg.term.isPlain := h.plain _ List.mem_cons_self
  have hpairs : PlainPairs [(left, right)] := by simpa [PlainPairs] using hplain
  have hsolves : (s.unifyPairs .byOccurrence true steps [] [(left, right)]).Solves s
      [(left, right)] :=
    Substitution.solves_unifyPairs h.regular hpairs steps
  rw [hunified] at hsolves
  obtain ⟨hregular, _, _, hiff⟩ := hsolves
  change Reduces program query s' ([] ++ next)
  refine h.replace hregular (by simp) fun θ hfree hsatisfies _ => ?_
  obtain ⟨hsatisfies, hequates⟩ := (hiff θ hfree).1 hsatisfies
  exact ⟨hsatisfies, .unify (hequates _ List.mem_cons_self)⟩

namespace Exploration

variable {e : Exploration} {clausesOf : String → List Clause}

/-- Entering a clause keeps a justified exploration justified. -/
theorem enter_justified {clauses : List Clause} (hcheck : config.occursCheck = true)
    (hprogram : ∀ clause ∈ program, clause.Numbered)
    (huser : isControl call.functor call.args.length = false)
    (h : Reduces program query e.substitution (.call call barrier depth :: next))
    (hbranches : ∀ branch ∈ e.branches, branch.Justified program query)
    (hclauses : ∀ clause ∈ clauses, clause ∈ program) :
    (e.enter config steps call clauses depth next).Justified program query := by
  rw [enter]
  cases hmatch : e.substitution.firstMatch config steps call clauses with
  | missing => exact hbranches
  | unfinished => trivial
  | found s' body isFact untried =>
    obtain ⟨hreduces, huntried⟩ := Substitution.reduces_of_firstMatch hcheck hprogram huser h
      hclauses hmatch e.branches.length (depth + 1)
    refine ⟨hreduces, ?_⟩
    dsimp only
    split
    · exact hbranches
    · have hplain : ∀ arg ∈ call.args, arg.term.isPlain := h.plain _ List.mem_cons_self
      have hbranch : Reduces program query e.substitution ([.call call 0 depth] ++ next) :=
        h.rewrite (List.forall_mem_singleton.2 hplain)
          fun θ _ _ hholds => hholds (.call call 0 depth) List.mem_cons_self
      exact List.forall_mem_cons.2 ⟨⟨hbranch, huser, huntried⟩, hbranches⟩

/-- Dropping branches keeps a justified exploration justified. -/
theorem Justified.cut (h : e.Justified program query) (height : Nat) :
    (e.cut height).Justified program query :=
  ⟨h.current, fun branch hmem => h.branches branch (List.mem_of_mem_drop hmem)⟩

/-- Doing what a call asks for keeps a justified exploration justified. -/
theorem perform_justified {goal : Goal} (hcheck : config.occursCheck = true)
    (hprogram : ∀ clause ∈ program, clause.Numbered)
    (hclauses : ∀ key, ∀ clause ∈ clausesOf key, clause ∈ program) (hasks : Goal.Asks call goal)
    (h : Reduces program query e.substitution (.call call barrier depth :: e.continuation))
    (hbranches : ∀ branch ∈ e.branches, branch.Justified program query) :
    (e.perform config clausesOf steps goal barrier depth).Justified program query := by
  have hplain : ∀ arg ∈ call.args, arg.term.isPlain := h.plain _ List.mem_cons_self
  -- The call is replaced by frames from which the goal it asks for follows.
  have hrewrite : ∀ front : List Frame, (∀ f ∈ front, f.Plain) →
      (∀ θ : Assignment, θ.NaNFree → θ.Satisfies e.substitution →
        (∀ f ∈ front, f.Holds program θ) → goal.Holds program θ) →
      Reduces program query e.substitution (front ++ e.continuation) :=
    fun front hfront hgoal => h.rewrite hfront fun θ hfree hsatisfies hholds =>
      hasks.derivable (hgoal θ hfree hsatisfies hholds)
  cases hasks with
  | truth => exact ⟨hrewrite [] (by simp) fun _ _ _ _ => trivial, hbranches⟩
  | failure => exact hbranches
  | cut => exact Justified.cut ⟨hrewrite [] (by simp) fun _ _ _ _ => trivial, hbranches⟩ barrier
  | @both left right =>
    refine ⟨hrewrite [.goal left barrier depth, .goal right barrier depth] ?_ ?_, hbranches⟩
    · simpa [Frame.Plain] using hplain
    · intro θ _ _ hholds
      exact ⟨hholds (.goal left barrier depth) (by simp),
        hholds (.goal right barrier depth) (by simp)⟩
  | @either left right =>
    refine ⟨hrewrite [.goal left barrier depth] ?_ ?_, List.forall_mem_cons.2 ⟨?_, hbranches⟩⟩
    · exact List.forall_mem_singleton.2 (hplain left (by simp))
    · exact fun θ _ _ hholds => Or.inl (hholds _ List.mem_cons_self)
    · refine hrewrite [.goal right barrier depth] ?_ ?_
      · exact List.forall_mem_singleton.2 (hplain right (by simp))
      · exact fun θ _ _ hholds => Or.inr (hholds _ List.mem_cons_self)
  | @ifThenElse left right condition consequent hleft =>
    have hparts := Call.isPlain_of_ofOccurrence hleft (hplain left (by simp))
    refine ⟨hrewrite [.goal condition (e.branches.length + 1) depth, .cutTo e.branches.length,
      .goal consequent barrier depth] ?_ ?_, List.forall_mem_cons.2 ⟨?_, hbranches⟩⟩
    · simpa [Frame.Plain] using hparts
    · intro θ _ _ hholds
      exact Or.inl ⟨hholds _ List.mem_cons_self, hholds (.goal consequent barrier depth) (by simp)⟩
    · refine hrewrite [.goal right barrier depth] ?_ ?_
      · exact List.forall_mem_singleton.2 (hplain right (by simp))
      · exact fun θ _ _ hholds => Or.inr ⟨right, rfl, hholds _ List.mem_cons_self⟩
  | @ifThen condition consequent =>
    refine ⟨hrewrite [.goal condition e.branches.length depth, .cutTo e.branches.length,
      .goal consequent barrier depth] ?_ ?_, hbranches⟩
    · simpa [Frame.Plain] using hplain
    · intro θ _ _ hholds
      exact Or.inl ⟨hholds _ List.mem_cons_self, hholds (.goal consequent barrier depth) (by simp)⟩
  | @negation functor target hname =>
    have hcurrent : Reduces program query e.substitution
        [.goal target (e.branches.length + 1) depth, .cutTo e.branches.length,
          .call ⟨"fail", []⟩ barrier depth] := by
      refine ⟨h.regular, by simpa [Frame.Plain] using hplain, fun θ _ _ hholds => ?_⟩
      -- Nothing follows the negated goal but failure.
      exact absurd (hholds (.call ⟨"fail", []⟩ barrier depth) (by simp))
        (Derivable.not_failure (Or.inl rfl))
    refine ⟨hcurrent, List.forall_mem_cons.2 ⟨?_, hbranches⟩⟩
    exact hrewrite [.goal (.whole 0 Clause.truth) barrier depth]
      (List.forall_mem_singleton.2 rfl) fun _ _ _ _ => trivial
  | @call target extra =>
    rw [perform]
    cases hcallee : Call.ofOccurrence (e.substitution.deref target) with
    | error => trivial
    | ok callee => exact ⟨h.of_call hcallee e.branches.length, hbranches⟩
  | @unify left right =>
    rw [perform, hcheck]
    cases hverdict : e.substitution.unifyPairs .byOccurrence true steps [] [(left, right)] with
    | clash => exact hbranches
    | unfinished => trivial
    | unified s' => exact ⟨h.of_unify hverdict, hbranches⟩
  | @differ left right =>
    rw [perform]
    cases e.substitution.unifyPairs .byOccurrence config.occursCheck steps [] [(left, right)] with
    | unified => exact hbranches
    | clash => exact ⟨hrewrite [] (by simp) fun _ _ _ _ => trivial, hbranches⟩
    | unfinished => trivial
  | predicate huser =>
    rw [perform, resolve]
    split
    · trivial
    · split
      · trivial
      · exact enter_justified hcheck hprogram huser h hbranches (hclauses call.indicator)

/-- Doing what a call asks for keeps a justified exploration justified. -/
theorem performCall_justified (hcheck : config.occursCheck = true)
    (hprogram : ∀ clause ∈ program, clause.Numbered)
    (hclauses : ∀ key, ∀ clause ∈ clausesOf key, clause ∈ program)
    (h : Reduces program query e.substitution (.call call barrier depth :: e.continuation))
    (hbranches : ∀ branch ∈ e.branches, branch.Justified program query) :
    (e.performCall config clausesOf steps call barrier depth).Justified program query := by
  rw [performCall]
  cases hgoal : Goal.ofCall call with
  | error => trivial
  | ok goal =>
    exact perform_justified hcheck hprogram hclauses (Goal.asks_of_ofCall hgoal) h hbranches

/-- A step keeps a justified exploration justified. -/
theorem advance_justified (hcheck : config.occursCheck = true)
    (hprogram : ∀ clause ∈ program, clause.Numbered)
    (hclauses : ∀ key, ∀ clause ∈ clausesOf key, clause ∈ program)
    (h : e.Justified program query) :
    (e.advance config clausesOf steps).Justified program query := by
  obtain ⟨s, continuation, branches, inferences⟩ := e
  obtain ⟨hcurrent, hbranches⟩ := h
  dsimp only at hcurrent hbranches
  match continuation with
  | [] => exact ⟨hcurrent, hbranches⟩
  | .cutTo height :: next =>
    refine Justified.cut ⟨?_, hbranches⟩ height
    change Reduces program query s ([] ++ next)
    exact hcurrent.rewrite (by simp) fun _ _ _ _ => trivial
  | .call call barrier depth :: next =>
    rw [advance]
    exact performCall_justified hcheck hprogram hclauses hcurrent hbranches
  | .goal target barrier depth :: next =>
    rw [advance]
    cases hcall : Call.ofOccurrence (s.deref target) with
    | error => trivial
    | ok call =>
      exact performCall_justified hcheck hprogram hclauses (hcurrent.of_goal hcall) hbranches

/-- Whatever is taken up again is justified. -/
theorem backtrack_justified (hcheck : config.occursCheck = true)
    (hprogram : ∀ clause ∈ program, clause.Numbered) {inferences : Nat} {branches : List Branch}
    (h : ∀ branch ∈ branches, branch.Justified program query)
    (hresumed : backtrack config steps inferences branches = .resumed e) :
    e.Justified program query := by
  obtain ⟨skipped, branch, rest, rfl, htakes⟩ := exists_takesUp_of_backtrack hresumed
  obtain ⟨hbranch, hrest⟩ := List.forall_mem_cons.1 (List.forall_mem_append.1 h).2
  cases htakes with
  | goal => exact ⟨hbranch, hrest⟩
  | @clauses s call untried depth next _ henter =>
    obtain ⟨hreduces, huser, huntried⟩ := hbranch
    have hstage : Stage.Justified program query
        (enter config steps call untried depth next ⟨s, next, rest, inferences⟩) :=
      enter_justified hcheck hprogram huser hreduces hrest huntried
    rwa [henter] at hstage

/-- The goal about to run is all that the query lacks. -/
theorem start_justified {goal : Term} (hgoal : goal.isClean) :
    (start goal.normalize).Justified program goal.normalize.term := by
  have hregular : (start goal.normalize).substitution.Regular :=
    Substitution.regular_of_bindings_eq_nil rfl
  refine ⟨⟨hregular, ?_, fun θ _ _ hholds => ?_⟩, by simp [start]⟩
  · exact List.forall_mem_singleton.2 (Term.isPlain_normalize hgoal)
  · exact hholds _ List.mem_cons_self

end Exploration

end Steps

end ClauseResolution
