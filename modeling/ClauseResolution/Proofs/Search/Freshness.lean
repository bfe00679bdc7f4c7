import ClauseResolution.Proofs.Clause.Instance
import ClauseResolution.Proofs.Search.Invariant
import ClauseResolution.Proofs.Unification.MostGeneral

/-!
# Slots from the top on are fresh

Slots are numbered along each branch by itself, and after going back the same slots are
given out again. What makes them fresh is that a branch reaches nothing beyond its own
top: not from its goals, nor from the values that are bound on it. A unification only
moves terms about that were there before, a clause takes its slots from the top on and
moves the top, and a branch that is left is left with its own top.
-/

namespace ClauseResolution

/-- All variables of a frame are anonymous or have slots below a bound. -/
def Frame.Scoped (frame : Frame) (top : Nat) : Prop := ∀ t ∈ frame.terms, t.Scoped top

/-- All variables of the pairs are anonymous or have slots below a bound. -/
def ScopedPairs (top : Nat) (pairs : List (Occurrence × Occurrence)) : Prop :=
  ∀ p ∈ pairs, p.1.term.Scoped top ∧ p.2.term.Scoped top

namespace Substitution

/-- The bindings lie below the top: those slots are bound, each once, and to terms with
variables below the top. -/
structure Confines (s : Substitution) : Prop where
  /-- Following variables ends. -/
  settles : s.Settles
  /-- A slot that is bound is below the top. -/
  slot_lt : ∀ slot value, (slot, value) ∈ s.bindings → slot < s.top
  /-- So are the slots in its value. -/
  value : ∀ slot value, (slot, value) ∈ s.bindings → value.term.Scoped s.top
  /-- No slot is bound twice. -/
  nodup : (s.bindings.map Prod.fst).Nodup

variable {s s' : Substitution} {l r o : Occurrence} {occursCheck : Bool} {steps : Nat}
  {entered pending : List (Occurrence × Occurrence)}

/-- A substitution without bindings has all of them below the top. -/
theorem confines_of_bindings_eq_nil (h : s.bindings = []) : s.Confines :=
  ⟨settles_of_bindings_eq_nil h, by simp [h], by simp [h], by simp [h]⟩

namespace Confines

/-- Allocating slots leaves the bindings below the top. -/
theorem allocate (h : s.Confines) (count : Nat) : (s.allocate count).Confines where
  settles := h.settles.withTop _
  slot_lt slot value hmem := Nat.lt_of_lt_of_le (h.slot_lt slot value hmem) (Nat.le_add_right _ _)
  value slot value hmem := (h.value slot value hmem).mono (Nat.le_add_right _ _)
  nodup := h.nodup

/-- What is followed from an occurrence is in its scope. -/
theorem deref (h : s.Confines) (ho : o.term.Scoped s.top) : (s.deref o).term.Scoped s.top :=
  deref_keeps (motive := fun o => o.term.Scoped s.top) (fun _ => h.value _ _) ho

/-- A binding that a pair below the top calls for is below the top. -/
theorem bind (h : s.Confines) {v : Var} {value : Occurrence}
    (htreats : s.Treats .byOccurrence occursCheck entered l r (.bind v value))
    (hl : l.term.Scoped s.top)
    (hr : r.term.Scoped s.top) : (s.bind v value).Confines ∧ (s.bind v value).top = s.top := by
  have hscope : (Term.var v).Scoped s.top ∧ value.term.Scoped s.top := by
    rcases htreats.bind_sides with ⟨hside, rfl⟩ | ⟨hside, rfl⟩
    · exact ⟨hside ▸ h.deref hl, h.deref hr⟩
    · exact ⟨hside ▸ h.deref hr, h.deref hl⟩
  have hfree := (htreats.bind_free h.settles).2
  have hsettles := htreats.settles_bind h.settles
  rcases Term.scoped_var.1 hscope.1 with rfl | ⟨slot, hlt, hslot⟩
  · exact ⟨h, rfl⟩
  · rw [Substitution.bind, hslot] at hsettles ⊢
    refine ⟨⟨hsettles, fun i other hmem => ?_, fun i other hmem => ?_, ?_⟩, rfl⟩
    · rcases List.mem_cons.1 hmem with heq | hmem
      · cases heq
        exact hlt
      · exact h.slot_lt i other hmem
    · rcases List.mem_cons.1 hmem with heq | hmem
      · cases heq
        exact hscope.2
      · exact h.value i other hmem
    · exact List.nodup_cons.2 ⟨not_mem_slots_of_valueAt (hfree slot hslot), h.nodup⟩

/-- A unification below the top stays there. -/
theorem unifyPairs (h : s.Confines) (hpending : ScopedPairs s.top pending)
    (hunified : s.unifyPairs .byOccurrence occursCheck steps entered pending = .unified s') :
    s'.Confines ∧ s'.top = s.top := by
  induction steps generalizing s entered pending with
  | zero =>
    cases pending with
    | nil =>
      cases hunified
      exact ⟨h, rfl⟩
    | cons pair pending => cases hunified
  | succ steps ih =>
    cases pending with
    | nil =>
      cases hunified
      exact ⟨h, rfl⟩
    | cons pair pending =>
      obtain ⟨l, r⟩ := pair
      obtain ⟨⟨hl, hr⟩, hrest⟩ := List.forall_mem_cons.1 hpending
      have htreats := s.treats_pairStep .byOccurrence occursCheck entered l r
      rw [Substitution.unifyPairs] at hunified
      cases hstep : s.pairStep .byOccurrence occursCheck entered l r with
      | skip =>
        rw [hstep] at hunified
        exact ih h hrest hunified
      | clash => simp [hstep] at hunified
      | bind v value =>
        rw [hstep] at hunified htreats
        obtain ⟨hbind, htop⟩ := h.bind htreats hl hr
        rw [← htop] at hrest ⊢
        exact ih hbind hrest hunified
      | descend left right remember =>
        rw [hstep] at hunified htreats
        obtain ⟨rfl, rfl⟩ : left = s.deref l ∧ right = s.deref r := by
          cases htreats
          exact ⟨rfl, rfl⟩
        have hargs := Occurrence.forall_zip_args (motive := fun t => t.Scoped s.top)
          Term.Scoped.of_mem_args (h.deref hl) (h.deref hr)
        exact ih h (List.forall_mem_append.2 ⟨hargs, hrest⟩) hunified

end Confines

end Substitution

/-- Nothing that the frames reach under the substitution lies at its top or beyond. -/
structure Encloses (s : Substitution) (frames : List Frame) : Prop where
  /-- The bindings lie below the top. -/
  confines : s.Confines
  /-- The goals do. -/
  scope : ∀ frame ∈ frames, frame.Scoped s.top

/-- A branch reaches nothing beyond its top, and the clauses left to be tried have their
variables numbered. -/
structure Branch.Closed (branch : Branch) : Prop where
  /-- Nothing lies at the top or beyond. -/
  encloses : Encloses branch.substitution branch.alternative.frames
  /-- The variables of the clauses are numbered. -/
  untried : ∀ clause ∈ branch.alternative.untried, clause.Placed

/-- Neither the goals that remain nor any branch reach beyond their top. -/
structure Exploration.Closed (e : Exploration) : Prop where
  /-- The goals that remain are below the current top. -/
  current : Encloses e.substitution e.continuation
  /-- Each branch is below its own. -/
  branches : ∀ branch ∈ e.branches, branch.Closed

/-- What a step leads to reaches nothing beyond a top. -/
def Stage.Closed : Stage → Prop
  | .proceed e | .backtrack e | .solution e => e.Closed
  | .error _ | .unfinished => True

section Steps

variable {s s' : Substitution} {frame : Frame} {next : List Frame} {call : Call}
  {barrier depth steps : Nat} {config : Config}

namespace Encloses

/-- A frame is replaced by frames below the same top. -/
theorem replace (h : Encloses s (frame :: next)) (front : List Frame)
    (hfront : ∀ f ∈ front, f.Scoped s.top) : Encloses s (front ++ next) :=
  ⟨h.confines, List.forall_mem_append.2 ⟨hfront, (List.forall_mem_cons.1 h.scope).2⟩⟩

/-- The frames after the first one. -/
theorem tail (h : Encloses s (frame :: next)) : Encloses s next :=
  ⟨h.confines, (List.forall_mem_cons.1 h.scope).2⟩

/-- The arguments of the call that is taken up are below the top. -/
theorem args (h : Encloses s (.call call barrier depth :: next)) :
    ∀ arg ∈ call.args, arg.term.Scoped s.top :=
  fun _ harg => h.scope _ List.mem_cons_self _ (List.mem_map_of_mem harg)

end Encloses

/-- The arguments of a call that is read off an occurrence are in its scope. -/
theorem Call.scoped_of_ofOccurrence {o : Occurrence} {top : Nat}
    (hcall : Call.ofOccurrence o = .ok call) (ho : o.term.Scoped top) :
    ∀ arg ∈ call.args, arg.term.Scoped top :=
  fun _ harg => ho.of_mem_args (Call.term_mem_args hcall harg)

/-- A goal is below the top when its term is. -/
theorem Frame.scoped_goal {target : Occurrence} {top : Nat} :
    (Frame.goal target barrier depth).Scoped top ↔ target.term.Scoped top :=
  List.forall_mem_singleton

/-- A call is below the top when its arguments are. -/
theorem Frame.scoped_call {top : Nat} :
    (Frame.call call barrier depth).Scoped top ↔ ∀ arg ∈ call.args, arg.term.Scoped top :=
  List.forall_mem_map

/-- Lying below the top is an invariant of branches: a clause that is entered has its slots
between the old top and the new one. -/
def enclosing (config : Config) : BranchInvariant config where
  Index := Nat
  Suits top s := s.Confines ∧ s.top = top
  Has top t := t.Scoped top
  Admits clause := clause.Placed
  truth top := Term.scoped_atom "true" top
  arg h ht := h.of_mem_args ht
  deref := by
    rintro _ s o ⟨h, rfl⟩ ho
    exact h.deref ho
  unify := by
    rintro _ s s' steps pairs ⟨h, rfl⟩ hpairs hunified
    exact h.unifyPairs hpairs hunified
  enter := by
    rintro _ s clause ⟨h, rfl⟩ hclause
    refine ⟨_, ⟨h.allocate clause.varCount, rfl⟩, fun t ht => ht.mono (Nat.le_add_right _ _), ?_,
      ?_⟩
    · exact (hclause.fresh_head s.context).scoped
    · exact (hclause.fresh_body s.context).scoped

/-- The invariant is carried by a substitution and frames when the substitution encloses the frames.
-/
theorem carried_enclosing_iff : (enclosing config).Carried s next ↔ Encloses s next := by
  constructor
  · rintro ⟨_, ⟨h, rfl⟩, hscope⟩
    exact ⟨h, hscope⟩
  · exact fun h => ⟨s.top, ⟨h.confines, rfl⟩, h.scope⟩

/-- A branch fulfils the invariant when it is closed. -/
theorem ofBranch_enclosing_iff {branch : Branch} :
    (enclosing config).OfBranch branch ↔ branch.Closed :=
  ⟨fun h => ⟨carried_enclosing_iff.1 h.carried, h.untried⟩,
    fun h => ⟨carried_enclosing_iff.2 h.encloses, h.untried⟩⟩

namespace Exploration

variable {e : Exploration} {clausesOf : String → List Clause}

/-- An exploration fulfils the invariant when it is closed. -/
theorem ofExploration_enclosing_iff : (enclosing config).OfExploration e ↔ e.Closed := by
  constructor
  · exact fun h => ⟨carried_enclosing_iff.1 h.current,
      fun branch hmem => ofBranch_enclosing_iff.1 (h.branches branch hmem)⟩
  · exact fun h => ⟨carried_enclosing_iff.2 h.current,
      fun branch hmem => ofBranch_enclosing_iff.2 (h.branches branch hmem)⟩

/-- A step leaves nothing beyond the tops. -/
theorem advance_closed (hclauses : ∀ key, ∀ clause ∈ clausesOf key, clause.Placed)
    (h : e.Closed) : (e.advance config clausesOf steps).Closed := by
  have hstage : (enclosing config).OfStage (e.advance config clausesOf steps) :=
    BranchInvariant.ofStage_advance hclauses (ofExploration_enclosing_iff.2 h)
  cases hmove : e.advance config clausesOf steps <;> rw [hmove] at hstage
  case error | unfinished => trivial
  all_goals exact ofExploration_enclosing_iff.1 hstage

/-- Whatever is taken up again has nothing beyond its top. -/
theorem backtrack_closed {inferences : Nat} {branches : List Branch}
    (h : ∀ branch ∈ branches, branch.Closed)
    (hresumed : backtrack config steps inferences branches = .resumed e) : e.Closed := by
  have hbranches : ∀ branch ∈ branches, (enclosing config).OfBranch branch :=
    fun branch hmem => ofBranch_enclosing_iff.2 (h branch hmem)
  exact ofExploration_enclosing_iff.1 (BranchInvariant.of_backtrack hbranches hresumed)

/-- A normalized goal lies below the number of its variables. -/
theorem start_closed (goal : Term) : (start goal.normalize).Closed := by
  obtain ⟨_, hplaced⟩ := Numbering.number_placed goal .empty
  have htop : goal.normalize.vars.length = (Numbering.empty.number goal).2.slots.size := by
    simp [Term.normalize, Numbering.vars]
  refine ⟨⟨Substitution.confines_of_bindings_eq_nil rfl, ?_⟩, by simp [start]⟩
  refine List.forall_mem_singleton.2 (Frame.scoped_goal.2 ?_)
  change goal.normalize.term.Scoped goal.normalize.vars.length
  rw [htop]
  exact hplaced.scope

end Exploration

end Steps

end ClauseResolution
