import ClauseResolution.Term.Fold
import ClauseResolution.Term.Leaves

/-!
# The calls of a fold

A visitor is called where a fold comes to a subterm on the way down, and again on the way up
where it asked to descend. A visitor that keeps its calls shows that the fold on a stack makes
them as the fold by recursion does. With its place in the term each call is told from all
others: the calls at a place and below it stand together, from the one that enters the subterm
to the one that leaves it.
-/

namespace ClauseResolution.Term

variable {σ ρ : Type}

/-- A call of a visitor, with what it answers. -/
inductive Visitor.Call (ρ : Type)
  /-- A subterm is met. -/
  | enter (t : Term) (answer : Visit ρ)
  /-- The values of the arguments of a subterm are combined. -/
  | leave (t : Term) (values : List ρ) (value : ρ)

/-- The visitor that also keeps its calls, in order. -/
def Visitor.recording (v : Visitor σ ρ) : Visitor (List (Call ρ) × σ) ρ where
  enter t := fun (calls, s) =>
    let (answer, s) := v.enter t s
    (answer, (calls ++ [.enter t answer], s))
  leave t values := fun (calls, s) =>
    let (value, s) := v.leave t values s
    (value, (calls ++ [.leave t values value], s))

/-- Entering a term is recorded, and is otherwise what it was. -/
theorem Visitor.recording_enter (v : Visitor σ ρ) (t : Term) (calls : List (Call ρ)) (s : σ) :
    v.recording.enter t (calls, s) =
      ((v.enter t s).1, (calls ++ [.enter t (v.enter t s).1], (v.enter t s).2)) := rfl

/-- Leaving a term is recorded, and is otherwise what it was. -/
theorem Visitor.recording_leave (v : Visitor σ ρ) (t : Term) (values : List ρ)
    (calls : List (Call ρ)) (s : σ) : v.recording.leave t values (calls, s) =
      ((v.leave t values s).1,
        (calls ++ [.leave t values (v.leave t values s).1], (v.leave t values s).2)) := rfl

mutual

/-- The calls when a subterm is folded by recursion, each with its place: the numbers of the
arguments that lead there. -/
def Visitor.tour (v : Visitor σ ρ) (place : List Nat) : Term → σ → List (List Nat × Call ρ)
  | t, s =>
    match v.enter t s with
    | (.done value, _) => [(place, .enter t (.done value))]
    | (.descend, s) =>
      match t with
      | .compound functor args varCount =>
        let (values, last) := v.visitAll args s
        let (value, _) := v.leave (.compound functor args varCount) values last
        (place, .enter (.compound functor args varCount) .descend) ::
          (v.tourAll place 0 args s ++
            [(place, .leave (.compound functor args varCount) values value)])
      | leaf => [(place, .enter leaf .descend), (place, .leave leaf [] (v.leave leaf [] s).1)]

/-- The calls when the arguments of a subterm are folded, the first of which has a number. -/
def Visitor.tourAll (v : Visitor σ ρ) (place : List Nat) :
    Nat → List Term → σ → List (List Nat × Call ρ)
  | _, [], _ => []
  | i, t :: ts, s => v.tour (place ++ [i]) t s ++ v.tourAll place (i + 1) ts (v.visit t s).2

end

/-- What passes from the arguments of a term to the term holds of every term. -/
theorem args_induction {motive : Term → Prop}
    (step : ∀ t, (∀ arg ∈ t.args, motive arg) → motive t) (t : Term) : motive t := by
  induction t with
  | atom | number | var => exact step _ (by simp [args])
  | compound functor args varCount ih => exact step _ ih

/-- The subterm at a place. -/
def at? : Term → List Nat → Option Term
  | t, [] => some t
  | t, i :: place => t.args[i]?.bind fun arg => arg.at? place

namespace Visitor

variable {v : Visitor σ ρ} {place : List Nat} {t u : Term} {s : σ}

/-- The calls at one node, whatever kind of term it is. -/
theorem tour_eq (v : Visitor σ ρ) (place : List Nat) (t : Term) (s : σ) :
    v.tour place t s = match v.enter t s with
      | (.done value, _) => [(place, .enter t (.done value))]
      | (.descend, s) =>
        let (values, last) := v.visitAll t.args s
        (place, .enter t .descend) :: (v.tourAll place 0 t.args s ++
          [(place, .leave t values (v.leave t values last).1)]) := by
  cases t <;> rw [tour] <;> simp only [args, visitAll, tourAll, List.nil_append]

/-- A visit of some terms records their tours, when the visit of each of them does. -/
theorem visitAll_recording {ts : List Term} (calls : List (Call ρ)) (place : List Nat) (i : Nat)
    (h : ∀ t ∈ ts, ∀ calls place s, v.recording.visit t (calls, s) =
      ((v.visit t s).1, (calls ++ (v.tour place t s).map Prod.snd, (v.visit t s).2))) :
    v.recording.visitAll ts (calls, s) = ((v.visitAll ts s).1,
      (calls ++ (v.tourAll place i ts s).map Prod.snd, (v.visitAll ts s).2)) := by
  induction ts generalizing calls i s with
  | nil => simp [visitAll, tourAll]
  | cons t ts ih =>
    obtain ⟨hfirst, hrest⟩ := List.forall_mem_cons.1 h
    rw [visitAll, hfirst calls (place ++ [i]) s]
    dsimp only
    rw [ih _ (i + 1) hrest]
    simp [visitAll, tourAll]

/-- The visitor that keeps its calls gives the same value and the same state, and keeps the
calls of the fold by recursion. -/
theorem visit_recording (v : Visitor σ ρ) (t : Term) (calls : List (Call ρ)) (place : List Nat)
    (s : σ) : v.recording.visit t (calls, s) =
      ((v.visit t s).1, (calls ++ (v.tour place t s).map Prod.snd, (v.visit t s).2)) := by
  induction t using args_induction generalizing calls place s with
  | step t ih =>
    rw [visit_eq, visit_eq, tour_eq, recording_enter]
    cases v.enter t s with
    | mk answer s =>
      cases answer with
      | done value => simp
      | descend =>
        dsimp only
        rw [visitAll_recording _ place 0 ih, recording_leave]
        simp

/-- The calls at a place and below it. The subterm is entered first. Unless the visitor answers
at once, it comes to all arguments, and only then leaves the subterm. -/
inductive Block (place : List Nat) (u : Term) : List (List Nat × Call ρ) → Prop
  /-- The visitor answers at once. -/
  | done (value : ρ) : Block place u [(place, .enter u (.done value))]
  /-- The visitor descends. -/
  | descend {below : List (List Nat × Call ρ)} (values : List ρ) (value : ρ)
      (hbelow : ∀ call ∈ below, ∃ i rest, call.1 = place ++ i :: rest)
      (hargs : ∀ i arg, u.args[i]? = some arg →
        ∃ answer, (place ++ [i], .enter arg answer) ∈ below) :
      Block place u ((place, .enter u .descend) :: (below ++ [(place, .leave u values value)]))

/-- Among these calls, those at a place and below it stand together. -/
def Visited (calls : List (List Nat × Call ρ)) (place : List Nat) (u : Term) : Prop :=
  ∃ before block after, calls = before ++ block ++ after ∧ Block place u block ∧
    ∀ other ∈ before ++ after, ¬ place <+: other.1

/-- A block by itself. -/
theorem Block.visited {block : List (List Nat × Call ρ)} (h : Block place u block) :
    Visited block place u := ⟨[], block, [], by simp, h, by simp⟩

namespace Visited

variable {calls more : List (List Nat × Call ρ)}

/-- Calls elsewhere may follow. -/
theorem append_right (h : Visited calls place u) (hmore : ∀ other ∈ more, ¬ place <+: other.1) :
    Visited (calls ++ more) place u := by
  obtain ⟨before, block, after, rfl, hblock, hothers⟩ := h
  obtain ⟨hbefore, hafter⟩ := List.forall_mem_append.1 hothers
  refine ⟨before, block, after ++ more, by simp, hblock, ?_⟩
  exact List.forall_mem_append.2 ⟨hbefore, List.forall_mem_append.2 ⟨hafter, hmore⟩⟩

/-- Calls elsewhere may come before. -/
theorem append_left (h : Visited calls place u) (hmore : ∀ other ∈ more, ¬ place <+: other.1) :
    Visited (more ++ calls) place u := by
  obtain ⟨before, block, after, rfl, hblock, hothers⟩ := h
  obtain ⟨hbefore, hafter⟩ := List.forall_mem_append.1 hothers
  refine ⟨more ++ before, block, after, by simp, hblock, ?_⟩
  exact List.forall_mem_append.2 ⟨List.forall_mem_append.2 ⟨hmore, hbefore⟩, hafter⟩

/-- Calls at a place above may come before and after. -/
theorem enclose {i : Nat} {rest : List Nat} (h : Visited calls (place ++ i :: rest) u)
    (first last : Call ρ) :
    Visited ((place, first) :: (calls ++ [(place, last)])) (place ++ i :: rest) u := by
  have habove : ¬ place ++ i :: rest <+: place := fun hstarts => by
    have hlength := hstarts.length_le
    rw [List.length_append, List.length_cons] at hlength
    omega
  have hinner : Visited (calls ++ [(place, last)]) (place ++ i :: rest) u :=
    h.append_right (List.forall_mem_singleton.2 habove)
  rw [← List.singleton_append]
  exact hinner.append_left (List.forall_mem_singleton.2 habove)

end Visited

/-- The calls are made at places of the term, each place with all that is below it at once. -/
def ToursOnce (v : Visitor σ ρ) (t : Term) : Prop :=
  ∀ place s, ∀ call ∈ v.tour place t s, ∃ rest u, call.1 = place ++ rest ∧ t.at? rest = some u ∧
    Visited (v.tour place t s) call.1 u

/-- The fold of a subterm begins where it enters the subterm. -/
theorem exists_enter_mem_tour (v : Visitor σ ρ) (place : List Nat) (t : Term) (s : σ) :
    ∃ answer, (place, .enter t answer) ∈ v.tour place t s := by
  rw [tour_eq]
  cases v.enter t s with
  | mk answer s => cases answer <;> exact ⟨_, List.mem_cons_self⟩

/-- All arguments are entered. -/
theorem exists_enter_mem_tourAll {ts : List Term} {i j : Nat} (h : ts[j]? = some t) :
    ∃ answer, (place ++ [i + j], .enter t answer) ∈ v.tourAll place i ts s := by
  induction ts generalizing i j s with
  | nil => simp at h
  | cons first ts ih =>
    rw [tourAll]
    cases j with
    | zero =>
      obtain rfl : first = t := by simpa using h
      obtain ⟨answer, hmem⟩ := v.exists_enter_mem_tour (place ++ [i]) first s
      exact ⟨answer, List.mem_append_left _ hmem⟩
    | succ j =>
      obtain ⟨answer, hmem⟩ := ih (i := i + 1) (s := (v.visit first s).2) (by simpa using h)
      rw [Nat.add_right_comm, Nat.add_assoc] at hmem
      exact ⟨answer, List.mem_append_right _ hmem⟩

/-- The calls below the arguments of a node: those below one argument are elsewhere than those
below another. -/
theorem visited_tourAll {ts : List Term} (h : ∀ t ∈ ts, v.ToursOnce t) {i : Nat} :
    ∀ call ∈ v.tourAll place i ts s, ∃ j rest u, call.1 = place ++ (i + j) :: rest ∧
      (ts[j]?.bind fun arg => arg.at? rest) = some u ∧
      Visited (v.tourAll place i ts s) call.1 u := by
  have helsewhere : ∀ {k l : Nat} {rest rest' : List Nat}, k ≠ l →
      ¬ place ++ k :: rest <+: place ++ l :: rest' := by
    intro k l rest rest' hne
    rw [List.prefix_append_right_inj, List.cons_prefix_cons]
    exact fun hstarts => hne hstarts.1
  induction ts generalizing i s with
  | nil => simp [tourAll]
  | cons first ts ih =>
    obtain ⟨hfirst, hrest⟩ := List.forall_mem_cons.1 h
    have hlater := ih hrest (i := i + 1) (s := (v.visit first s).2)
    intro call hcall
    rw [tourAll] at hcall ⊢
    -- The calls of the first argument and those of the later ones are at different numbers.
    rcases List.mem_append.1 hcall with hcall | hcall
    · obtain ⟨rest, u, hplace, hat, hvisited⟩ := hfirst _ _ call hcall
      rw [List.append_assoc] at hplace
      refine ⟨0, rest, u, hplace, by simpa using hat, hvisited.append_right fun other hother => ?_⟩
      obtain ⟨j, rest', _, hother, _⟩ := hlater other hother
      rw [hplace, hother]
      exact helsewhere (by omega)
    · obtain ⟨j, rest, u, hplace, hat, hvisited⟩ := hlater call hcall
      rw [Nat.add_right_comm, Nat.add_assoc] at hplace
      refine ⟨j + 1, rest, u, hplace, by simpa using hat,
        hvisited.append_left fun other hother => ?_⟩
      obtain ⟨rest', _, hother, _⟩ := hfirst _ _ other hother
      rw [hplace, hother, List.append_assoc]
      exact helsewhere (by omega)

/-- The calls at a node from which the visitor descends. -/
theorem block_descend (place : List Nat) (s : σ) (h : ∀ arg ∈ t.args, v.ToursOnce arg)
    (values : List ρ) (value : ρ) : Block place t ((place, .enter t .descend) ::
      (v.tourAll place 0 t.args s ++ [(place, .leave t values value)])) := by
  refine .descend values value (fun call hcall => ?_) fun i arg harg => ?_
  · obtain ⟨j, rest, _, hplace, _⟩ := visited_tourAll h call hcall
    exact ⟨0 + j, rest, hplace⟩
  · have hentered : ∃ answer, (place ++ [0 + i], .enter arg answer) ∈ v.tourAll place 0 t.args s :=
      exists_enter_mem_tourAll harg
    rwa [Nat.zero_add] at hentered

/-- Whatever the visitor does, it is called at each place with all that is below it at once. -/
theorem toursOnce (v : Visitor σ ρ) (t : Term) : v.ToursOnce t := by
  induction t using args_induction with
  | step t ih =>
    intro place s
    rw [tour_eq]
    cases v.enter t s with
    | mk answer s =>
      cases answer with
      | done value =>
        exact List.forall_mem_singleton.2 ⟨[], t, by simp, rfl, (Block.done value).visited⟩
      | descend =>
        dsimp only
        have hself := (block_descend place s ih (v.visitAll t.args s).1
          (v.leave t (v.visitAll t.args s).1 (v.visitAll t.args s).2).1).visited
        intro call hcall
        rcases List.mem_cons.1 hcall with rfl | hcall
        · exact ⟨[], t, by simp, rfl, hself⟩
        rcases List.mem_append.1 hcall with hcall | hcall
        · obtain ⟨j, rest, u, hplace, hat, hvisited⟩ := visited_tourAll ih call hcall
          rw [Nat.zero_add] at hplace
          rw [hplace] at hvisited ⊢
          exact ⟨j :: rest, u, rfl, hat, hvisited.enclose _ _⟩
        · obtain rfl := List.mem_singleton.1 hcall
          exact ⟨[], t, by simp, rfl, hself⟩

end Visitor

/-- A fold on the stack ends with the value and the state of the fold by recursion, for every
visitor. Its calls are those of the recursion. They are made at places of the term: at each of
these the visitor enters the subterm once, before all calls below, and if it descends it leaves
the subterm once, after all calls below. -/
theorem fold_visits_once (v : Visitor σ ρ) (t : Term) (s : σ) :
    fold v t s = v.visit t s ∧
      fold v.recording t ([], s) =
        ((v.visit t s).1, ((v.tour [] t s).map Prod.snd, (v.visit t s).2)) ∧
      ∀ call ∈ v.tour [] t s, ∃ u, t.at? call.1 = some u ∧
        Visitor.Visited (v.tour [] t s) call.1 u := by
  refine ⟨fold_eq_visit v t s, ?_, fun call hcall => ?_⟩
  · rw [fold_eq_visit, v.visit_recording t [] [] s, List.nil_append]
  · obtain ⟨rest, u, hplace, hat, hvisited⟩ := v.toursOnce t [] s call hcall
    rw [List.nil_append] at hplace
    exact ⟨u, by rw [hplace]; exact hat, hvisited⟩

/-- In `f(a, g())`, a visitor that descends into compound terms is called at the root, at the
first argument, at the second one twice, and again at the root. -/
theorem fold_visits_once_nested :
    let v : Visitor Nat Nat :=
      ⟨fun t n => (if t.toCompound?.isSome then .descend else .done n, n), fun _ _ n => (n, n + 1)⟩
    let t := Term.apply "f" [.atom "a", .apply "g" []]
    fold v t 0 = (1, 2) ∧ (v.tour [] t 0).map Prod.fst = [[], [0], [1], [1], []] ∧
      ([1], .enter (.apply "g" []) .descend) ∈ v.tour [] t 0 ∧
      ∃ u, t.at? [1] = some u ∧ Visitor.Visited (v.tour [] t 0) [1] u := by
  intro v t
  obtain ⟨hfold, _, hvisited⟩ := fold_visits_once v t 0
  have hmem : ([1], .enter (.apply "g" []) .descend) ∈ v.tour [] t 0 :=
    .tail _ (.tail _ (.head _))
  exact ⟨hfold, rfl, hmem, hvisited _ hmem⟩

end ClauseResolution.Term
