import ClauseResolution.Proofs.Search.Ending

/-!
# Steps of a search with the occurs check

With the occurs check no substitution of a search becomes cyclic, neither the current one nor
those to return to, whatever the clauses and the goals are. So every step and every return to
a branch ends when enough is granted.
-/

namespace ClauseResolution

/-- No substitution of the search is cyclic. -/
structure Exploration.Acyclic (e : Exploration) : Prop where
  /-- The current one is not. -/
  current : e.substitution.Acyclic
  /-- Those to return to are not. -/
  branches : ∀ branch ∈ e.branches, branch.substitution.Acyclic

/-- No substitution is cyclic after a step. -/
def Stage.Acyclic : Stage → Prop
  | .proceed e | .backtrack e | .solution e => e.Acyclic
  | .error _ | .unfinished => True

variable {config : Config} {clausesOf : String → List Clause} {steps m n : Nat}
  {s s' : Substitution} {call : Call} {clauses untried : List Clause} {body head : Occurrence}
  {isFact : Bool}

namespace Substitution

/-- When a clause is entered, fewer are left to try. -/
theorem length_untried_lt
    (hfound : s.firstMatch config steps call clauses = .found s' body isFact untried) :
    untried.length < clauses.length := by
  obtain ⟨skipped, clause, rfl, _⟩ := exists_of_firstMatch_eq_found hfound
  rw [List.length_append, List.length_cons]
  omega

end Substitution

namespace Exploration

variable {e : Exploration} {depth : Nat} {next : List Frame}

/-- With the occurs check, being acyclic is an invariant of branches. -/
def acyclicity (hcheck : config.occursCheck = true) : BranchInvariant config where
  Index := Unit
  Suits _ s := s.Acyclic
  Has _ _ := True
  Admits _ := True
  truth _ := trivial
  arg _ _ := trivial
  deref _ _ := trivial
  unify h _ hunified := Substitution.acyclic_of_unified (fun _ => h) hunified hcheck
  enter {_ _ clause} h _ := ⟨(), h.allocate clause.varCount, fun _ _ => trivial, trivial, trivial⟩

/-- An acyclic substitution is carried by any frames when the occurs check is on. -/
theorem carried_acyclicity (hcheck : config.occursCheck = true) (h : s.Acyclic)
    (frames : List Frame) : (acyclicity hcheck).Carried s frames :=
  ⟨(), h, fun _ _ _ _ => trivial⟩

/-- A branch with an acyclic substitution fulfils the invariant. -/
theorem ofBranch_acyclicity (hcheck : config.occursCheck = true) {branch : Branch}
    (h : branch.substitution.Acyclic) : (acyclicity hcheck).OfBranch branch :=
  ⟨carried_acyclicity hcheck h _, fun _ _ => trivial⟩

/-- The invariant of an exploration says that its substitutions are acyclic. -/
theorem ofExploration_acyclicity_iff (hcheck : config.occursCheck = true) :
    (acyclicity hcheck).OfExploration e ↔ e.Acyclic := by
  constructor
  · rintro ⟨⟨_, hcurrent, _⟩, hbranches⟩
    refine ⟨hcurrent, fun branch hmem => ?_⟩
    obtain ⟨_, hbranch, _⟩ := (hbranches branch hmem).carried
    exact hbranch
  · rintro ⟨hcurrent, hbranches⟩
    exact ⟨carried_acyclicity hcheck hcurrent _,
      fun branch hmem => ofBranch_acyclicity hcheck (hbranches branch hmem)⟩

/-- A stage that fulfils the invariant has acyclic substitutions. -/
theorem acyclic_of_ofStage {hcheck : config.occursCheck = true} {stage : Stage}
    (h : (acyclicity hcheck).OfStage stage) : stage.Acyclic := by
  cases stage with
  | proceed | backtrack | solution => exact (ofExploration_acyclicity_iff hcheck).1 h
  | error | unfinished => trivial

/-- Entering a clause makes no substitution cyclic. -/
theorem enter_acyclic (hcheck : config.occursCheck = true) (h : e.Acyclic) :
    (e.enter config steps call clauses depth next).Acyclic :=
  acyclic_of_ofStage (BranchInvariant.ofStage_enter
    (carried_acyclicity hcheck h.current (.call call 0 depth :: next))
    ((ofExploration_acyclicity_iff hcheck).2 h) fun _ _ => trivial)

/-- No substitution becomes cyclic in a step. -/
theorem advance_acyclic (hcheck : config.occursCheck = true) (h : e.Acyclic) :
    (e.advance config clausesOf steps).Acyclic :=
  acyclic_of_ofStage (BranchInvariant.ofStage_advance (fun _ _ _ => trivial)
    ((ofExploration_acyclicity_iff hcheck).2 h))

/-- What is taken up again is acyclic. -/
theorem backtrack_acyclic {inferences : Nat} {branches : List Branch}
    (hcheck : config.occursCheck = true) (h : ∀ branch ∈ branches, branch.substitution.Acyclic)
    (hresumed : backtrack config steps inferences branches = .resumed e) : e.Acyclic :=
  (ofExploration_acyclicity_iff hcheck).1 (BranchInvariant.of_backtrack
    (fun branch hmem => ofBranch_acyclicity hcheck (h branch hmem)) hresumed)

/-- Going back counts no call. -/
theorem inferences_of_backtrack {inferences : Nat} {branches : List Branch}
    (hresumed : backtrack config steps inferences branches = .resumed e) :
    e.inferences = inferences := by
  obtain ⟨skipped, branch, rest, rfl, htakes⟩ := exists_takesUp_of_backtrack hresumed
  cases htakes with
  | goal => rfl
  | @clauses s call untried depth next _ henter =>
    rw [enter] at henter
    split at henter <;> cases henter
    rfl

/-- A search starts without bindings. -/
theorem start_acyclic (query : Normalized) : (start query).Acyclic :=
  ⟨Substitution.acyclic_of_bindings_eq_nil rfl, by simp [start]⟩

/-- A step ends. -/
theorem exists_advance (hcheck : config.occursCheck = true) (h : e.Acyclic)
    (clausesOf : String → List Clause) :
    ∃ steps, e.advance config clausesOf steps ≠ .unfinished :=
  exists_advance_of_ends (h.current.ends hcheck) clausesOf

/-- Going back ends. -/
theorem exists_backtrack {branches : List Branch} (hcheck : config.occursCheck = true)
    (h : ∀ branch ∈ branches, branch.substitution.Acyclic) (inferences : Nat) :
    ∃ steps, backtrack config steps inferences branches ≠ .unfinished :=
  exists_backtrack_of_ends (fun branch hmem => (h branch hmem).ends hcheck) inferences

end Exploration

end ClauseResolution
