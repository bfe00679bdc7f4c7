import ClauseResolution.Proofs.Search.Freshness
import ClauseResolution.Proofs.Search.Justification
import ClauseResolution.Proofs.Search.Purity

/-!
# No instance is lost

While a query of pure goals is solved, an instance of it that is derivable is always on
its way: under some assignment that satisfies the current substitution the query becomes
the instance and the remaining goals are derivable, or the same holds of a branch to
return to. A clause that derives a goal is lifted to its renamed form, since the slots of
a renaming are fresh and may be assigned as the derivation says; the unification with its
head then loses nothing, for it is most general.
-/

namespace ClauseResolution

/-- The frame runs a pure goal. -/
def Frame.IsPure : Frame → Prop
  | .goal target _ _ => target.term.IsPure
  | .call callee _ _ => callee.term.IsPure
  | .cutTo _ => False

/-- The goal is an instance of the head of the clause, and the same instance of the body is
derivable. -/
def Clause.Yields (program : Set Clause) (clause : Clause) (t : Term) : Prop :=
  ∃ η : Assignment, η.NaNFree ∧ t.same (clause.head.toTerm.assign η) ∧
    Derivable program (clause.body.assign η)

/-- A derivable call of a predicate is yielded by a clause. -/
theorem Derivable.exists_yields {program : Set Clause} {functor : String} {args : List Term}
    {n : Nat}
    (hprogram : ∀ clause ∈ program, clause.head.toTerm.isNaNFree ∧ clause.body.isNaNFree)
    (huser : isControl functor args.length = false)
    (h : Derivable program (.compound functor args n)) :
    ∃ clause ∈ program, clause.Yields program (.compound functor args n) := by
  obtain ⟨clause, hclause, η, hhead, hbody⟩ := h.of_predicate huser
  obtain ⟨hfreeHead, hfreeBody⟩ := hprogram clause hclause
  have hinstance := Term.clear_eq_self (Term.isNaNFree_of_same (Term.same_symm hhead))
  refine ⟨clause, hclause, η.clear, η.nanFree_clear, ?_, ?_⟩
  · rwa [← Term.clear_assign hfreeHead, hinstance]
  · rw [← Term.clear_assign hfreeBody]
    exact hbody.clear hprogram

/-- A clause yields calls with its own indicator only. -/
theorem Clause.Yields.key_eq {program : Set Clause} {clause : Clause} {θ : Assignment}
    {call : Call} (h : clause.Yields program (call.assign θ)) : clause.key = call.indicator := by
  obtain ⟨η, _, hsame, _⟩ := h
  rw [Compound.toTerm, Term.assign_compound] at hsame
  obtain ⟨hfunctor, hargs⟩ := Term.same_compound.1 hsame
  have hlength : call.args.length = clause.head.args.length := by simpa using hargs.length_eq
  rw [Clause.key, Compound.indicator, Compound.arity, Call.indicator, hfunctor, hlength]

/-- The assignment that is continued from a slot on by another one, moved up to there. -/
def Assignment.splice (θ : Assignment) (base : Nat) (η : Assignment) : Assignment :=
  fun slot => if slot < base then θ slot else some ((Term.var ⟨"X", some (slot - base)⟩).assign η)

namespace Assignment

variable {θ η : Assignment} {base : Nat}

/-- Two assignments without such numbers are spliced into one without such numbers. -/
theorem NaNFree.splice (hθ : θ.NaNFree) (hη : η.NaNFree) (base : Nat) :
    (θ.splice base η).NaNFree := by
  intro slot t ht
  rw [Assignment.splice] at ht
  split at ht
  · exact hθ slot t ht
  · cases ht
    exact Term.isNaNFree_assign (fun slot _ => hη slot) rfl

/-- Terms with slots below the base become what they were. -/
theorem assign_splice {t : Term} (h : ∀ slot ∈ t.slots, slot < base) :
    t.assign (θ.splice base η) = t.assign θ :=
  Term.assign_congr fun slot hslot => if_pos (h slot hslot)

/-- Above the base the clause is given what the other assignment gives to it. -/
theorem assign_values_splice {clause : Clause} {t : Term} (hη : η.NaNFree)
    (h : t.Numbered clause.varCount) :
    (t.assign (clause.values base (θ.splice base η))).same (t.assign η) := by
  refine Term.assign_same_assign (Term.isNaNFree_of_isPlain h.plain) fun slot hslot v hv => ?_
  obtain ⟨name, hname⟩ := clause.frame_getElem? base (h.bound slot hslot)
  have hvalue : clause.values base (θ.splice base η) slot =
      some ((Term.var ⟨"X", some slot⟩).assign η) := by
    rw [Clause.values, hname, Option.map_some, Term.assign_var_of_index rfl, splice,
      if_neg (by omega), Option.getD_some, Nat.add_sub_cancel_left]
  rw [Term.assign_var_of_index hv, hvalue, Option.getD_some]
  exact Term.assign_var_same hη rfl hv

/-- The assignment makes the query the instance, as the substitution allows, and makes the
frames derivable. -/
structure Attests (θ : Assignment) (program : Set Clause) (query u : Term) (s : Substitution)
    (frames : List Frame) : Prop where
  /-- No number that is not a number is assigned. -/
  nanFree : θ.NaNFree
  /-- The substitution is satisfied. -/
  satisfies : θ.Satisfies s
  /-- The variables of the query are allocated. -/
  below : ∀ slot ∈ query.slots, slot < s.top
  /-- The query becomes the instance. -/
  query : (query.assign θ).same u
  /-- The frames are derivable. -/
  holds : ∀ frame ∈ frames, frame.Holds program θ

end Assignment

/-- What a branch has left to try leads to the instance: it does so as it stands, or one of
the clauses left yields the call. -/
def Branch.Promises (program : Set Clause) (query u : Term) (branch : Branch) : Prop :=
  match branch.alternative with
  | .goal goal barrier depth next =>
    ∃ θ : Assignment,
      θ.Attests program query u branch.substitution (.goal goal barrier depth :: next)
  | .clauses call untried _ next =>
    ∃ θ : Assignment, θ.Attests program query u branch.substitution next ∧
      ∃ clause ∈ untried, clause.Yields program (call.assign θ)

/-- Only pure goals and clauses with pure bodies are left on a branch. -/
structure Branch.IsPure (branch : Branch) : Prop where
  /-- The goals are pure. -/
  frames : ∀ frame ∈ branch.alternative.frames, frame.IsPure
  /-- So are the bodies of the clauses. -/
  untried : ∀ clause ∈ branch.alternative.untried, clause.body.IsPure

/-- Only pure goals remain, and the instance is on its way. -/
structure Exploration.Promising (program : Set Clause) (query u : Term) (e : Exploration) :
    Prop where
  /-- The goals that remain are pure. -/
  frames : ∀ frame ∈ e.continuation, frame.IsPure
  /-- So are those of each branch. -/
  branches : ∀ branch ∈ e.branches, branch.IsPure
  /-- The goals that remain lead to the instance, or a branch does. -/
  promise : (∃ θ : Assignment, θ.Attests program query u e.substitution e.continuation) ∨
    ∃ branch ∈ e.branches, branch.Promises program query u

/-- After a step the instance is still on its way; when the search goes back, it is on a
branch. -/
def Stage.Promising (program : Set Clause) (query u : Term) : Stage → Prop
  | .proceed e | .solution e => e.Promising program query u
  | .backtrack e => (∀ branch ∈ e.branches, branch.IsPure) ∧
      ∃ branch ∈ e.branches, branch.Promises program query u
  | .error _ | .unfinished => True

/-- The assignment is not lost by a unification. -/
def Verdict.Attests (θ : Assignment) (program : Set Clause) (query u : Term)
    (frames : List Frame) : Verdict → Prop
  | .unified s => θ.Attests program query u s frames
  | .clash => False
  | .unfinished => True

/-- The instance is not lost when a clause is looked for: it goes on with the clause that
is found, or with one after it. -/
def Hit.Promises (program : Set Clause) (query u : Term) (θ : Assignment) (call : Call)
    (height inner : Nat) (next : List Frame) : Hit → Prop
  | .found s body isFact untried =>
    (∃ θ' : Assignment, θ'.Attests program query u s
      (if isFact then next else .goal body height inner :: next)) ∨
      ∃ clause ∈ untried, clause.Yields program (call.assign θ)
  | .missing => False
  | .unfinished => True

section Steps

variable {program sound : Set Clause} {query u known : Term} {θ η : Assignment}
  {s s' : Substitution} {frame : Frame} {frames next : List Frame} {call : Call}
  {barrier depth steps : Nat} {config : Config}

/-- What holds of a frame depends on the slots below its scope only. -/
theorem Frame.holds_congr {θ' : Assignment} {top : Nat} (hscope : frame.Scoped top)
    (h : ∀ slot < top, θ slot = θ' slot) (hholds : frame.Holds program θ) :
    frame.Holds program θ' := by
  have hassign : ∀ t ∈ frame.terms, t.assign θ = t.assign θ' := fun t ht =>
    Term.assign_congr fun slot hslot => h slot ((hscope t ht).slot_lt hslot)
  cases frame with
  | goal target barrier depth =>
    rwa [Holds, ← hassign target.term List.mem_cons_self]
  | call callee barrier depth =>
    have hargs : callee.assign θ = callee.assign θ' := by
      rw [Call.assign, Call.assign]
      congr 1
      exact List.map_congr_left fun arg harg => hassign arg.term (List.mem_map_of_mem harg)
    rwa [Holds, ← hargs]
  | cutTo height => trivial

namespace Assignment.Attests

/-- A frame is replaced by frames that hold as well. -/
theorem replace (h : θ.Attests program query u s (frame :: next)) (front : List Frame)
    (hfront : ∀ f ∈ front, f.Holds program θ) : θ.Attests program query u s (front ++ next) :=
  ⟨h.nanFree, h.satisfies, h.below, h.query,
    List.forall_mem_append.2 ⟨hfront, (List.forall_mem_cons.1 h.holds).2⟩⟩

/-- The frames after the first one. -/
theorem tail (h : θ.Attests program query u s (frame :: next)) :
    θ.Attests program query u s next := h.replace [] (by simp)

/-- Whatever is given to fresh slots, the assignment says of the old ones what it said. -/
theorem splice (h : θ.Attests program query u s frames) (hencloses : Encloses s frames)
    (hη : η.NaNFree) (count : Nat) :
    (θ.splice s.top η).Attests program query u (s.allocate count) frames where
  nanFree := h.nanFree.splice hη s.top
  satisfies slot value hmem v hv := by
    have hslot := hencloses.confines.slot_lt slot value hmem
    have hvar : ∀ i ∈ (Term.var v).slots, i < s.top := fun i hi => by
      rw [Term.mem_slots_var, hv] at hi
      cases hi
      exact hslot
    rw [assign_splice hvar,
      assign_splice fun i hi => (hencloses.confines.value slot value hmem).slot_lt hi]
    exact h.satisfies slot value hmem v hv
  below slot hslot := Nat.lt_of_lt_of_le (h.below slot hslot) (Nat.le_add_right _ _)
  query := by
    rw [assign_splice h.below]
    exact h.query
  holds frame hframe :=
    Frame.holds_congr (hencloses.scope frame hframe) (fun _ hlt => (if_pos hlt).symm)
      (h.holds frame hframe)

/-- Unifying what the assignment makes the same anyway does not lose it. -/
theorem unifyPairs (h : θ.Attests program query u s frames) (hregular : s.Regular)
    {pairs : List (Occurrence × Occurrence)} (hplain : PlainPairs pairs)
    (hequates : θ.Equates pairs) :
    (s.unifyPairs .byOccurrence true steps [] pairs).Attests θ program query u frames := by
  have hsolves : (s.unifyPairs .byOccurrence true steps [] pairs).Solves s pairs :=
    Substitution.solves_unifyPairs hregular hplain steps
  cases hverdict : s.unifyPairs .byOccurrence true steps [] pairs with
  | unified s' =>
    rw [hverdict] at hsolves
    obtain ⟨_, htop, _, hiff⟩ := hsolves
    refine ⟨h.nanFree, (hiff θ h.nanFree).2 ⟨h.satisfies, hequates⟩, ?_, h.query, h.holds⟩
    rw [htop]
    exact h.below
  | clash =>
    rw [hverdict] at hsolves
    exact hsolves θ h.nanFree ⟨h.satisfies, hequates⟩
  | unfinished => trivial

/-- Unifying a call with a head that becomes the same does not lose the assignment. -/
theorem unifyHead {head : Occurrence} {functor : String} {args : List Term} {n : Nat}
    (h : θ.Attests program query u s frames) (hcheck : config.occursCheck = true)
    (hregular : s.Regular) (hcall : ∀ arg ∈ call.args, arg.term.isPlain)
    (hhead : head.term.isPlain) (hterm : head.term = .compound functor args n)
    (hsame : (call.assign θ).same (head.term.assign θ)) :
    (s.unifyHead config steps call head).Attests θ program query u frames := by
  rw [hterm, Term.assign_compound] at hsame
  obtain ⟨hfunctor, hargs⟩ := Term.same_compound.1 hsame
  have hlength : call.args.length = args.length := by
    simpa using hargs.length_eq
  have hzip : call.args.length = head.args.length := by
    rw [Occurrence.length_args, hterm]
    exact hlength
  rw [Substitution.unifyHead, hcheck, hterm]
  simp only [hfunctor, hlength, and_self, if_true]
  refine h.unifyPairs hregular (fun p hp => ?_) ?_
  · obtain ⟨hfst, hsnd⟩ := List.of_mem_zip hp
    exact ⟨hcall _ hfst, Term.isPlain_of_mem_args hhead (Occurrence.term_mem_args hsnd)⟩
  · rw [Assignment.equates_zip_iff hzip, Occurrence.map_assign_args, hterm]
    exact hargs

/-- A clause that yields the call is lifted: the unification with its renamed head leads to
its renamed body. -/
theorem exists_unifyHead {clause : Clause} (h : θ.Attests program query u s next)
    (hcheck : config.occursCheck = true) (hnumbered : clause.Numbered)
    (hreduces : Reduces sound known s (.call call barrier depth :: next))
    (hencloses : Encloses s (.call call barrier depth :: next))
    (hyields : clause.Yields program (call.assign θ)) (steps height inner : Nat) :
    ∃ θ' : Assignment,
      ((s.allocate clause.varCount).unifyHead config steps call
        (clause.rename s.context).head).Attests θ' program query u
        (if clause.isFact then next
          else .goal (clause.rename s.context).body height inner :: next) := by
  obtain ⟨η, hη, hsame, hbody⟩ := hyields
  obtain ⟨hheadPlain, hhead⟩ := hnumbered.rename_head s.context
  obtain ⟨hbodyPlain, hrename⟩ := hnumbered.rename_body s.context
  have hlifted := h.splice hencloses.tail hη clause.varCount
  have hcall : call.assign (θ.splice s.top η) = call.assign θ := by
    rw [Call.assign, Call.assign]
    congr 1
    refine List.map_congr_left fun arg harg => assign_splice fun slot hslot => ?_
    exact (hencloses.args arg harg).slot_lt hslot
  have hterm : ∃ args, (clause.rename s.context).head.term =
      .compound clause.head.functor args clause.head.varCount :=
    ⟨_, Term.instantiate_compound _ _ _⟩
  obtain ⟨args, hterm⟩ := hterm
  refine ⟨θ.splice s.top η, unifyHead ?_ hcheck (hreduces.regular.allocate _)
    (hreduces.plain _ List.mem_cons_self) hheadPlain hterm ?_⟩
  · split
    · exact hlifted
    · refine ⟨hlifted.nanFree, hlifted.satisfies, hlifted.below, hlifted.query,
        List.forall_mem_cons.2 ⟨?_, hlifted.holds⟩⟩
      refine hbody.of_same (Term.same_symm ?_)
      rw [hrename]
      exact assign_values_splice hη hnumbered.body
  · rw [hcall, hhead]
    exact Term.same_trans hsame (Term.same_symm (assign_values_splice hη hnumbered.head))

end Assignment.Attests

/-- Looking for a clause loses no instance that one of the clauses yields. -/
theorem Substitution.firstMatch_promises {clauses : List Clause}
    (h : θ.Attests program query u s next) (hcheck : config.occursCheck = true)
    (hnumbered : ∀ clause ∈ clauses, clause.Numbered)
    (hreduces : Reduces sound known s (.call call barrier depth :: next))
    (hencloses : Encloses s (.call call barrier depth :: next))
    (hyields : ∃ clause ∈ clauses, clause.Yields program (call.assign θ)) (height inner : Nat) :
    (s.firstMatch config steps call clauses).Promises program query u θ call height inner next := by
  induction clauses with
  | nil => simp at hyields
  | cons clause clauses ih =>
    obtain ⟨hclause, hrest⟩ := List.forall_mem_cons.1 hnumbered
    rw [firstMatch]
    rcases (List.exists_mem_cons_iff ..).1 hyields with hthis | hlater
    · obtain ⟨θ', hverdict⟩ :=
        h.exists_unifyHead hcheck hclause hreduces hencloses hthis steps height inner
      cases hunify : (s.allocate clause.varCount).unifyHead config steps call
          (clause.rename s.context).head with
      | unified s' =>
        rw [hunify] at hverdict
        exact Or.inl ⟨θ', hverdict⟩
      | clash =>
        rw [hunify] at hverdict
        exact hverdict.elim
      | unfinished => trivial
    · cases (s.allocate clause.varCount).unifyHead config steps call
          (clause.rename s.context).head with
      | unified s' => exact Or.inr hlater
      | clash => exact ih hrest hlater
      | unfinished => trivial

/-- The body of a clause that is found and those after it are pure. -/
theorem Substitution.isPure_of_firstMatch {clauses untried : List Clause} {body : Occurrence}
    {isFact : Bool} (hclauses : ∀ clause ∈ clauses, clause.body.IsPure)
    (hfound : s.firstMatch config steps call clauses = .found s' body isFact untried) :
    body.term.IsPure ∧ ∀ clause ∈ untried, clause.body.IsPure := by
  obtain ⟨skipped, clause, rfl, _, rfl, _⟩ := exists_of_firstMatch_eq_found hfound
  obtain ⟨hclause, huntried⟩ := List.forall_mem_cons.1 (List.forall_mem_append.1 hclauses).2
  exact ⟨hclause.instantiate _, huntried⟩

namespace Exploration

variable {e : Exploration} {clausesOf : String → List Clause}

/-- Entering a clause loses no instance. -/
theorem enter_promising {clauses : List Clause} (hcheck : config.occursCheck = true)
    (hclauses : ∀ clause ∈ clauses, clause.IsClean ∧ clause.body.IsPure)
    (hreduces : Reduces sound known e.substitution (.call call barrier depth :: next))
    (hencloses : Encloses e.substitution (.call call barrier depth :: next))
    (hcall : call.term.IsPure) (hnext : ∀ f ∈ next, f.IsPure)
    (hbranches : ∀ branch ∈ e.branches, branch.IsPure)
    (h : (∃ θ : Assignment, θ.Attests program query u e.substitution next ∧
        ∃ clause ∈ clauses, clause.Yields program (call.assign θ)) ∨
      ∃ branch ∈ e.branches, branch.Promises program query u) :
    (e.enter config steps call clauses depth next).Promising program query u := by
  have hlater : ∀ untried : List Clause, ∀ branch ∈ e.branches, branch ∈
      (if untried.isEmpty then e.branches
        else ⟨e.substitution, .clauses call untried depth next⟩ :: e.branches) := by
    intro untried branch hmem
    split
    · exact hmem
    · exact List.mem_cons_of_mem _ hmem
  have hpromises : ∀ θ : Assignment, θ.Attests program query u e.substitution next →
      (∃ clause ∈ clauses, clause.Yields program (call.assign θ)) →
      (e.substitution.firstMatch config steps call clauses).Promises program query u θ call
        e.branches.length (depth + 1) next := fun θ hattests hyields =>
    Substitution.firstMatch_promises hattests hcheck
      (fun clause hmem => (hclauses clause hmem).1.numbered) hreduces hencloses hyields _ _
  rw [enter]
  cases hmatch : e.substitution.firstMatch config steps call clauses with
  | unfinished => trivial
  | missing =>
    rw [hmatch] at hpromises
    refine ⟨hbranches, h.resolve_left ?_⟩
    rintro ⟨θ, hattests, hyields⟩
    exact hpromises θ hattests hyields
  | found s' body isFact untried =>
    rw [hmatch] at hpromises
    obtain ⟨hbody, huntried⟩ := Substitution.isPure_of_firstMatch
      (fun clause hmem => (hclauses clause hmem).2) hmatch
    refine ⟨?_, ?_, ?_⟩
    · dsimp only
      split
      · exact hnext
      · exact List.forall_mem_cons.2 ⟨hbody, hnext⟩
    · dsimp only
      split
      · exact hbranches
      · exact List.forall_mem_cons.2 ⟨⟨List.forall_mem_cons.2 ⟨hcall, hnext⟩, huntried⟩, hbranches⟩
    · rcases h with ⟨θ, hattests, hyields⟩ | ⟨branch, hmem, hbranch⟩
      · rcases hpromises θ hattests hyields with hfound | ⟨clause, hclause, hyields⟩
        · exact Or.inl hfound
        · refine Or.inr ⟨⟨e.substitution, .clauses call untried depth next⟩, ?_,
            θ, hattests, clause, hclause, hyields⟩
          have hempty : untried.isEmpty = false := by
            rw [List.isEmpty_eq_false_iff]
            exact List.ne_nil_of_mem hclause
          simp [hempty]
      · exact Or.inr ⟨branch, hlater untried branch hmem, hbranch⟩

/-- Unifying two terms loses no instance of the goals after it. -/
theorem unify_promising {left right : Occurrence} (hcheck : config.occursCheck = true)
    (hreduces : Reduces sound known e.substitution
      (.call ⟨"=", [left, right]⟩ barrier depth :: e.continuation))
    (h : (e.continueWith (.call ⟨"=", [left, right]⟩ barrier depth :: e.continuation)).Promising
      program query u) :
    (e.perform config clausesOf steps (.unify left right) barrier depth).Promising program query
      u := by
  obtain ⟨hframes, hbranches, hpromise⟩ := h
  obtain ⟨hcall, hnext⟩ := List.forall_mem_cons.1 hframes
  have hplain : ∀ arg ∈ [left, right], arg.term.isPlain := hreduces.plain _ List.mem_cons_self
  have hpairs : PlainPairs [(left, right)] := by simpa [PlainPairs] using hplain
  have hasks : Goal.Asks ⟨"=", [left, right]⟩ (.unify left right) := .unify
  have hunify : ∀ θ : Assignment,
      θ.Attests program query u e.substitution (.call ⟨"=", [left, right]⟩ barrier depth ::
        e.continuation) →
      (e.substitution.unifyPairs .byOccurrence true steps [] [(left, right)]).Attests θ program
      query u
        e.continuation := fun θ hattests =>
    hattests.tail.unifyPairs hreduces.regular hpairs (List.forall_mem_singleton.2
      (hasks.holds_of_derivable (hasks.isPure hcall) (hattests.holds _ List.mem_cons_self)))
  rw [perform, hcheck]
  cases hverdict : e.substitution.unifyPairs .byOccurrence true steps [] [(left, right)] with
  | unfinished => trivial
  | clash =>
    rw [hverdict] at hunify
    refine ⟨hbranches, hpromise.resolve_left ?_⟩
    rintro ⟨θ, hattests⟩
    exact hunify θ hattests
  | unified s' =>
    rw [hverdict] at hunify
    refine ⟨hnext, hbranches, hpromise.imp_left ?_⟩
    rintro ⟨θ, hattests⟩
    exact ⟨θ, hunify θ hattests⟩

/-- Calling a predicate loses no instance: the clause that yields it is among those offered. -/
theorem resolve_promising (hcheck : config.occursCheck = true)
    (hoffered : ∀ clause ∈ program, clause ∈ clausesOf clause.key)
    (hclauses : ∀ key, ∀ clause ∈ clausesOf key, clause.IsClean ∧ clause.body.IsPure)
    (huser : isControl call.functor call.args.length = false)
    (hreduces : Reduces sound known e.substitution (.call call barrier depth :: e.continuation))
    (hencloses : Encloses e.substitution (.call call barrier depth :: e.continuation))
    (h : (e.continueWith (.call call barrier depth :: e.continuation)).Promising program query u) :
    (e.resolve config clausesOf steps call depth).Promising program query u := by
  obtain ⟨hframes, hbranches, hpromise⟩ := h
  obtain ⟨hcall, hnext⟩ := List.forall_mem_cons.1 hframes
  rw [resolve]
  split
  · trivial
  · split
    · trivial
    · refine enter_promising hcheck (hclauses call.indicator) hreduces hencloses hcall hnext
        hbranches (hpromise.imp_left ?_)
      rintro ⟨θ, hattests⟩
      obtain ⟨clause, hclause, hyields⟩ : ∃ clause ∈ program,
          clause.Yields program (call.assign θ) := by
        refine Derivable.exists_yields (fun clause hclause => ?_) (by rwa [List.length_map])
          (hattests.holds _ List.mem_cons_self)
        have hnumbered := (hclauses _ clause (hoffered clause hclause)).1.numbered
        exact ⟨Term.isNaNFree_of_isPlain hnumbered.head.plain,
          Term.isNaNFree_of_isPlain hnumbered.body.plain⟩
      refine ⟨θ, hattests.tail, clause, ?_, hyields⟩
      rw [← hyields.key_eq]
      exact hoffered clause hclause

/-- Doing what a pure call asks for loses no instance. -/
theorem perform_promising {goal : Goal} (hcheck : config.occursCheck = true)
    (hoffered : ∀ clause ∈ program, clause ∈ clausesOf clause.key)
    (hclauses : ∀ key, ∀ clause ∈ clausesOf key, clause.IsClean ∧ clause.body.IsPure)
    (hasks : Goal.Asks call goal)
    (hreduces : Reduces sound known e.substitution (.call call barrier depth :: e.continuation))
    (hencloses : Encloses e.substitution (.call call barrier depth :: e.continuation))
    (h : (e.continueWith (.call call barrier depth :: e.continuation)).Promising program query u) :
    (e.perform config clausesOf steps goal barrier depth).Promising program query u := by
  obtain ⟨hframes, hbranches, hpromise⟩ := h
  obtain ⟨hcall, hnext⟩ := List.forall_mem_cons.1 hframes
  have hpure := hasks.isPure hcall
  have hholds : ∀ θ : Assignment,
      θ.Attests program query u e.substitution (.call call barrier depth :: e.continuation) →
      goal.Holds program θ := fun θ hattests =>
    hasks.holds_of_derivable hpure (hattests.holds _ List.mem_cons_self)
  -- The call is replaced by pure frames that hold if the goal does.
  have hrewrite : ∀ front : List Frame, (∀ f ∈ front, f.IsPure) →
      (∀ θ : Assignment, goal.Holds program θ → ∀ f ∈ front, f.Holds program θ) →
      (e.continueWith (front ++ e.continuation)).Promising program query u := by
    intro front hfront hgoal
    refine ⟨List.forall_mem_append.2 ⟨hfront, hnext⟩, hbranches, hpromise.imp_left ?_⟩
    rintro ⟨θ, hattests⟩
    exact ⟨θ, hattests.replace front (hgoal θ (hholds θ hattests))⟩
  cases hasks with
  | truth => exact hrewrite [] (by simp) fun _ _ => by simp
  | failure =>
    refine ⟨hbranches, hpromise.resolve_left ?_⟩
    rintro ⟨θ, hattests⟩
    exact hholds θ hattests
  | @both left right =>
    refine hrewrite [.goal left barrier depth, .goal right barrier depth] ?_ fun θ hgoal => ?_
    · obtain ⟨hleft, hright⟩ := hpure
      simp [Frame.IsPure, hleft, hright]
    · obtain ⟨hleft, hright⟩ := hgoal
      simp [Frame.Holds, hleft, hright]
  | @either left right =>
    obtain ⟨hleft, hright⟩ := hpure
    refine ⟨List.forall_mem_cons.2 ⟨hleft, hnext⟩, List.forall_mem_cons.2
      ⟨⟨List.forall_mem_cons.2 ⟨hright, hnext⟩, by simp [Alternative.untried]⟩, hbranches⟩, ?_⟩
    rcases hpromise with ⟨θ, hattests⟩ | ⟨branch, hmem, hbranch⟩
    · rcases hholds θ hattests with hderivable | hderivable
      · exact Or.inl ⟨θ, hattests.replace [.goal left barrier depth]
          (List.forall_mem_singleton.2 hderivable)⟩
      · exact Or.inr ⟨_, List.mem_cons_self, θ,
          hattests.replace [.goal right barrier depth]
            (List.forall_mem_singleton.2 hderivable)⟩
    · exact Or.inr ⟨branch, List.mem_cons_of_mem _ hmem, hbranch⟩
  | unify => exact unify_promising hcheck hreduces ⟨hframes, hbranches, hpromise⟩
  | predicate huser =>
    exact resolve_promising hcheck hoffered hclauses huser hreduces hencloses
      ⟨hframes, hbranches, hpromise⟩
  | cut | ifThenElse | ifThen | negation | call | differ => exact hpure.elim

/-- Doing what a pure call asks for loses no instance. -/
theorem performCall_promising (hcheck : config.occursCheck = true)
    (hoffered : ∀ clause ∈ program, clause ∈ clausesOf clause.key)
    (hclauses : ∀ key, ∀ clause ∈ clausesOf key, clause.IsClean ∧ clause.body.IsPure)
    (hreduces : Reduces sound known e.substitution (.call call barrier depth :: e.continuation))
    (hencloses : Encloses e.substitution (.call call barrier depth :: e.continuation))
    (h : (e.continueWith (.call call barrier depth :: e.continuation)).Promising program query u) :
    (e.performCall config clausesOf steps call barrier depth).Promising program query u := by
  rw [performCall]
  cases hgoal : Goal.ofCall call with
  | error => trivial
  | ok goal =>
    exact perform_promising hcheck hoffered hclauses (Goal.asks_of_ofCall hgoal) hreduces hencloses
      h

/-- A step loses no instance. -/
theorem advance_promising (hcheck : config.occursCheck = true)
    (hoffered : ∀ clause ∈ program, clause ∈ clausesOf clause.key)
    (hclauses : ∀ key, ∀ clause ∈ clausesOf key, clause.IsClean ∧ clause.body.IsPure)
    (hjustified : e.Justified sound known) (hclosed : e.Closed)
    (h : e.Promising program query u) :
    (e.advance config clausesOf steps).Promising program query u := by
  obtain ⟨s, continuation, branches, inferences⟩ := e
  have hreduces := hjustified.current
  have hencloses := hclosed.current
  dsimp only at hreduces hencloses
  match continuation with
  | [] => exact h
  | .cutTo height :: next => exact (h.frames (.cutTo height) List.mem_cons_self).elim
  | .call call barrier depth :: next =>
    rw [advance]
    exact performCall_promising hcheck hoffered hclauses hreduces hencloses h
  | .goal target barrier depth :: next =>
    rw [advance]
    cases hcall : Call.ofOccurrence (s.deref target) with
    | error => trivial
    | ok call =>
      obtain ⟨htarget, hnext⟩ := List.forall_mem_cons.1 h.frames
      -- A pure goal is no variable, so there is nothing to follow.
      have hsame : s.deref target = target := Substitution.deref_of_settled (by
        rw [Substitution.Settled, Substitution.follow, Occurrence.slot?,
          Term.IsPure.slot?_eq_none htarget, Option.bind_none])
      have hscope := hencloses.scope _ List.mem_cons_self
      have hcall' : Call.ofOccurrence target = .ok call := by rwa [hsame] at hcall
      have hframe : Frame.Scoped (.call call barrier depth) s.top :=
        Frame.scoped_call.2 (Call.scoped_of_ofOccurrence hcall' (Frame.scoped_goal.1 hscope))
      refine performCall_promising hcheck hoffered hclauses (hreduces.of_goal hcall)
        (hencloses.replace [_] (List.forall_mem_singleton.2 hframe)) ⟨?_, h.branches, ?_⟩
      · exact List.forall_mem_cons.2 ⟨Call.isPure_of_ofOccurrence hcall' htarget, hnext⟩
      · refine h.promise.imp_left ?_
        rintro ⟨θ, hattests⟩
        refine ⟨θ, hattests.replace [.call call barrier depth]
          (List.forall_mem_singleton.2 (Call.derivable_assign hcall' ?_))⟩
        exact hattests.holds _ List.mem_cons_self

/-- What going back leads to when the instance is on a branch. -/
def Return.Promising (program : Set Clause) (query u : Term) : Return → Prop
  | .resumed e => e.Promising program query u
  | .exhausted _ => False
  | .unfinished => True

/-- Going back loses no instance: a branch that leads to it is not passed over. -/
theorem backtrack_promising (hcheck : config.occursCheck = true) {inferences : Nat}
    {branches : List Branch}
    (hjustified : ∀ branch ∈ branches, branch.Justified {clause | clause.IsClean} known)
    (hclosed : ∀ branch ∈ branches, branch.Closed)
    (hpure : ∀ branch ∈ branches, branch.IsPure)
    (h : ∃ branch ∈ branches, branch.Promises program query u) :
    (backtrack config steps inferences branches).Promising program query u := by
  induction branches with
  | nil => simp at h
  | cons branch branches ih =>
    obtain ⟨hjustified, hjustifiedRest⟩ := List.forall_mem_cons.1 hjustified
    obtain ⟨hclosed, hclosedRest⟩ := List.forall_mem_cons.1 hclosed
    obtain ⟨⟨hframes, huntried⟩, hpureRest⟩ := List.forall_mem_cons.1 hpure
    rw [List.exists_mem_cons_iff] at h
    match branch with
    | ⟨s, .goal target barrier depth next⟩ => exact ⟨hframes, hpureRest, h⟩
    | ⟨s, .clauses call untried depth next⟩ =>
      obtain ⟨hreduces, _, hsound⟩ := hjustified
      obtain ⟨hcall, hnext⟩ := List.forall_mem_cons.1 hframes
      have hstage : Stage.Promising program query u
          (enter config steps call untried depth next ⟨s, next, branches, inferences⟩) :=
        enter_promising hcheck (fun clause hmem => ⟨hsound clause hmem, huntried clause hmem⟩)
          hreduces hclosed.encloses hcall hnext hpureRest h
      rw [backtrack]
      cases henter : enter config steps call untried depth next ⟨s, next, branches, inferences⟩ with
      | proceed e' =>
        rw [henter] at hstage
        exact hstage
      | unfinished => trivial
      | backtrack e' =>
        rw [henter, eq_of_enter_eq_backtrack henter] at hstage
        exact ih hjustifiedRest hclosedRest hpureRest hstage.2
      | solution | error =>
        rw [enter] at henter
        split at henter <;> cases henter

/-- When a pure goal is about to run, each derivable instance of it is on its way. -/
theorem start_promising {goal : Term} (hgoal : goal.IsPure)
    (hfree : (goal.normalize.term.assign θ).isNaNFree)
    (h : Derivable program (goal.normalize.term.assign θ)) :
    (start goal.normalize).Promising program goal.normalize.term
      (goal.normalize.term.assign θ) := by
  have hscope : goal.normalize.term.Scoped (start goal.normalize).substitution.top :=
    Frame.scoped_goal.1 ((start_closed goal).current.scope _ List.mem_cons_self)
  -- Only the variables of the goal are assigned.
  let relevant : Assignment := fun slot => if slot ∈ goal.normalize.term.slots then θ slot else none
  have hassign : goal.normalize.term.assign relevant = goal.normalize.term.assign θ :=
    Term.assign_congr fun slot hslot => if_pos hslot
  refine ⟨List.forall_mem_singleton.2 hgoal.normalize, by simp [start], Or.inl ⟨relevant, ?_⟩⟩
  refine ⟨fun slot t ht => ?_, by simp [Assignment.Satisfies, start], fun slot => hscope.slot_lt,
    ?_, List.forall_mem_singleton.2 ?_⟩
  · obtain ⟨hslot, ht⟩ := Option.ite_none_right_eq_some.1 ht
    exact Term.isNaNFree_of_assign hfree hslot ht
  · rw [hassign]
    exact Term.same_self hfree
  · change Derivable program (goal.normalize.term.assign relevant)
    rwa [hassign]

end Exploration

end Steps

end ClauseResolution
