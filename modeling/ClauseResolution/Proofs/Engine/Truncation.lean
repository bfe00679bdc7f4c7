import ClauseResolution.Proofs.Engine.Completeness
import ClauseResolution.Proofs.Engine.Freshness
import ClauseResolution.Proofs.Search.Events
import ClauseResolution.Proofs.Search.Reclaiming
import Mathlib.Algebra.GroupWithZero.Nat

/-!
# What ends a search early only cuts it short

A search can be ended by the depth of a call, by the number of calls and by the listener.
Up to the first event at which one of these ends it, a search takes the same turns as one
that is not bounded, and it ends there. So the events of the search without bounds tell
what is delivered under any bounds, and how the search ends then.
-/

namespace ClauseResolution

/-- What may end a search before it has run its course. -/
structure Bounds where
  /-- A call is refused at this depth. -/
  depth : Nat
  /-- The number of calls that are allowed, if it is bounded. -/
  calls : Option Nat
  /-- The number of the solution at which the listener ends the search, if it does so. -/
  last : Option Nat

namespace Bounds

/-- No bounds but one on the depth. -/
def deep (depth : Nat) : Bounds := ⟨depth, none, none⟩

/-- How an event ends the search, if it does so, after a number of calls and solutions. -/
def stop? (b : Bounds) (calls solutions : Nat) : Event → Option Ending
  | .call _ depth =>
    if b.depth ≤ depth then some (.failed (.depthExceeded b.depth))
    else (b.calls.filter (· = calls)).map fun limit => .failed (.inferenceLimit limit)
  | .solution _ =>
    if b.last = some (solutions + 1) then some (.finished ⟨solutions + 1, calls, true⟩) else none

/-- The events up to the first one that ends the search, which is included, and how it
ends it. -/
def cut (b : Bounds) (calls solutions : Nat) : List Event → List Event × Option Ending
  | [] => ([], none)
  | event :: events =>
    match b.stop? calls solutions event with
    | some ending => ([event], some ending)
    | none =>
      let (upTo, ending) := b.cut (calls + event.calls) (solutions + event.solutions) events
      (event :: upTo, ending)

/-- A call at which the search does not end is within the bounds. -/
theorem within_of_stop? {b : Bounds} {calls solutions : Nat} {call : Call} {depth : Nat}
    (h : b.stop? calls solutions (.call call depth) = none) :
    depth < b.depth ∧ ∀ limit ∈ b.calls, limit ≠ calls := by
  rw [stop?] at h
  split at h
  · cases h
  · next hdepth =>
    rw [Option.map_eq_none_iff, Option.filter_eq_none_iff] at h
    exact ⟨by omega, fun limit hlimit => by simpa using h limit hlimit⟩

/-- The number of calls stays within the bounds where the search does not end. -/
theorem calls_le_of_stop? {b : Bounds} {calls solutions : Nat} {event : Option Event}
    (hcalls : ∀ limit ∈ b.calls, calls ≤ limit)
    (h : event.bind (b.stop? calls solutions) = none) :
    ∀ limit ∈ b.calls, calls + event.elim 0 Event.calls ≤ limit := by
  intro limit hlimit
  have hle := hcalls limit hlimit
  match event with
  | none => exact hle
  | some (.solution s) => exact hle
  | some (.call call depth) =>
    have hstop : b.stop? calls solutions (.call call depth) = none := h
    have hne := (within_of_stop? hstop).2 limit hlimit
    have hcount : (some (Event.call call depth)).elim 0 Event.calls = 1 := rfl
    omega

/-- The events are kept where the search does not end. -/
theorem cut_of_stop? {b : Bounds} {calls solutions : Nat} {event : Option Event}
    (h : event.bind (b.stop? calls solutions) = none) (events : List Event) :
    b.cut calls solutions (event.toList ++ events) =
      (event.toList ++ (b.cut (calls + event.elim 0 Event.calls)
          (solutions + event.elim 0 Event.solutions) events).1,
        (b.cut (calls + event.elim 0 Event.calls)
          (solutions + event.elim 0 Event.solutions) events).2) := by
  cases event with
  | none => rfl
  | some event =>
    have hstop : b.stop? calls solutions event = none := h
    simp only [Option.toList_some, List.singleton_append, cut, hstop, Option.elim_some]

/-- A search that ends at a call has failed. -/
theorem hasSolution_of_stop? {b : Bounds} {calls solutions : Nat} {call : Call} {depth : Nat}
    {ending : Ending} (h : b.stop? calls solutions (.call call depth) = some ending) :
    ending.hasSolution = false := by
  rw [stop?] at h
  split at h
  · cases h
    rfl
  · obtain ⟨limit, _, rfl⟩ := Option.map_eq_some_iff.1 h
    rfl

/-- The search for one solution that is not cut short has none. -/
theorem solutions_of_cut_first {d : Nat} {n : Option Nat} {calls solutions : Nat}
    {events : List Event}
    (h : (cut ⟨d, n, some (solutions + 1)⟩ calls solutions events).2 = none) :
    (events.map Event.solutions).sum = 0 := by
  induction events generalizing calls with
  | nil => rfl
  | cons event events ih =>
    rw [cut] at h
    split at h
    · cases h
    · next hstop =>
      match event with
      | .solution s => simp [stop?] at hstop
      | .call call depth => simpa [Event.solutions] using ih h

/-- The search for one solution has it where a solution comes before anything that ends the
search. -/
theorem cut_first {d : Nat} {n : Option Nat} {calls solutions : Nat} {events : List Event} :
    (cut ⟨d, n, some (solutions + 1)⟩ calls solutions events).2.any Ending.hasSolution = true ↔
      ∃ before s after, events = before ++ .solution s :: after ∧
        (cut ⟨d, n, none⟩ calls solutions before).2 = none := by
  induction events generalizing calls with
  | nil => simp [cut]
  | cons event events ih =>
    match event with
    | .solution s =>
      have hfirst : Event.solution s :: events = [] ++ .solution s :: events := rfl
      have hstop : stop? ⟨d, n, some (solutions + 1)⟩ calls solutions (.solution s) =
          some (.finished ⟨solutions + 1, calls, true⟩) := if_pos rfl
      simp only [cut, hstop]
      exact ⟨fun _ => ⟨[], s, events, hfirst, rfl⟩, fun _ => by simp [Ending.hasSolution]⟩
    | .call call depth =>
      have hsame : stop? ⟨d, n, some (solutions + 1)⟩ calls solutions (.call call depth) =
          stop? ⟨d, n, none⟩ calls solutions (.call call depth) := rfl
      have hcons : (∃ before s after, Event.call call depth :: events =
            before ++ .solution s :: after ∧
            (cut ⟨d, n, none⟩ calls solutions before).2 = none) ↔
          ∃ before s after, events = before ++ .solution s :: after ∧
            (cut ⟨d, n, none⟩ calls solutions (.call call depth :: before)).2 = none := by
        constructor
        · rintro ⟨before, s, after, hevents, hnone⟩
          cases before with
          | nil => cases hevents
          | cons first before =>
            cases hevents
            exact ⟨before, s, after, rfl, hnone⟩
        · rintro ⟨before, s, after, rfl, hnone⟩
          exact ⟨.call call depth :: before, s, after, rfl, hnone⟩
      rw [hcons]
      cases hstop : stop? ⟨d, n, none⟩ calls solutions (.call call depth) with
      | some ending =>
        have hfailed : ending.hasSolution = false := hasSolution_of_stop? hstop
        simp [cut, hsame, hstop, hfailed]
      | none =>
        simp only [cut, hsame, hstop]
        exact ih

end Bounds

/-- The engine with other bounds on the depth and the number of calls. -/
def Engine.bounded (engine : Engine) (b : Bounds) : Engine :=
  { engine with config := engine.config.within b.depth b.calls }

/-- The listener that ends the search at the solution of a given number and goes on at all
others, whatever the listener it stands for would do. It counts the solutions. -/
def Listener.stopAt {α : Type} (last : Option Nat) (listener : Listener α) :
    Listener (Nat × α) :=
  fun s env (count, value) =>
    let (_, env, value) := listener s env value
    (if last = some (count + 1) then .abort else .continue, env, count + 1, value)

/-- The events of a search for a goal without bounds but one on the depth, the listener of
which always goes on. -/
def Engine.course {α : Type} (engine : Engine) (depth steps : Nat) (goal : Term)
    (listener : Listener α) (value : α) : List Event :=
  Search.events (engine.config.within depth none) engine.index goal.normalize.vars
    (listener.stopAt none) steps (engine.begin goal (0, value))

section Lockstep

variable {α β : Type} {config : Config} {index : ClauseIndex} {vars : List Var} {steps top : Nat}
  {l : Listener α} {l' : Listener β} {b : Bounds} {R : Nat → α → β → Prop}

/-- A listener does what another one does that always goes on, up to the solution of a given
number, and ends the search there. The values of the two are related, given the number of
solutions so far. -/
structure Listener.Follows (l' : Listener β) (l : Listener α) (last : Option Nat)
    (R : Nat → α → β → Prop) : Prop where
  /-- The other listener goes on. -/
  continues : ∀ s env v, (l s env v).1 = .continue
  /-- The search ends at the solution of that number. -/
  stops : ∀ s env count v w, R count v w → last = some (count + 1) → (l' s env w).1 = .abort
  /-- Before, both do the same. -/
  follows : ∀ s env count v w, R count v w → last ≠ some (count + 1) →
    (l' s env w).1 = .continue ∧ (l' s env w).2.1 = (l s env v).2.1 ∧
      R (count + 1) (l s env v).2.2 (l' s env w).2.2

/-- Two searches under way are in one state. -/
structure Progress.Aligned (R : Nat → α → β → Prop) (p : Progress α) (q : Progress β) : Prop where
  /-- The same number of solutions was found. -/
  solutions : q.solutions = p.solutions
  /-- The states are the same. -/
  state : q.state = p.state
  /-- So are the environments. -/
  environment : q.environment = p.environment
  /-- The values are related. -/
  value : R p.solutions p.value q.value

/-- Two turns lead to one state, or both end the search in the same way. -/
def Turn.Aligned (R : Nat → α → β → Prop) : Turn α → Turn β → Prop
  | .going p, .going q => p.Aligned R q
  | .ended r, .ended r' => r'.ending = r.ending
  | _, _ => False

/-- Keeping solutions does not disturb a listener. -/
theorem Listener.Follows.recording {last : Option Nat} (h : l'.Follows l last R) :
    l'.recording.Follows l last fun count v w => R count v w.2 where
  continues := h.continues
  stops s env count v w hvalue hlast := h.stops s env count v w.2 hvalue hlast
  follows s env count v w hvalue hlast := h.follows s env count v w.2 hvalue hlast

/-- Two values of listeners that count are the same, and the count is right. -/
def Listener.Counted (count : Nat) (v w : Nat × α) : Prop := w = v ∧ v.1 = count

/-- The listener that ends the search at a solution does before what the one does that
always goes on. -/
theorem Listener.stopAt_follows (last : Option Nat) :
    (l.stopAt last).Follows (l.stopAt none) last Counted where
  continues s env v := rfl
  stops := by
    rintro s env count ⟨_, v⟩ _ ⟨rfl, rfl⟩ rfl
    exact if_pos rfl
  follows := by
    rintro s env count ⟨_, v⟩ _ ⟨rfl, rfl⟩ hlast
    exact ⟨if_neg hlast, rfl, rfl, rfl⟩

/-- The search for one solution ends at the first one. -/
theorem Engine.first_follows :
    first.Follows (l.stopAt none) (some 1) fun count _ _ => count = 0 where
  continues s env v := rfl
  stops s env count v w _ _ := rfl
  follows s env count v w hcount hlast := absurd (by rw [hcount]) hlast

namespace Search

/-- Going back keeps two searches aligned. -/
theorem retry_aligned {p : Progress α} {q : Progress β} (h : p.Aligned R q) :
    (retry config steps p).Aligned R (retry config steps q) := by
  obtain ⟨count, state, env, v⟩ := p
  obtain ⟨count', state', env', w⟩ := q
  obtain ⟨rfl, rfl, rfl, hvalue⟩ := h
  rw [retry, retry]
  cases state'.backtrack config steps with
  | resumed last => exact ⟨rfl, rfl, rfl, hvalue⟩
  | exhausted last => rfl
  | unfinished => rfl

/-- A turn at whose event a bounded search does not end is a turn of the search without
bounds. -/
theorem turn_aligned (hl : l'.Follows l b.last R) {p : Progress α} {q : Progress β}
    (h : p.Aligned R q) (hcalls : ∀ limit ∈ b.calls, p.state.inferences ≤ limit)
    (hdeep : ∀ call depth, turnEvent? vars p = some (.call call depth) → depth < top)
    (hstop : (turnEvent? vars p).bind (b.stop? p.state.inferences p.solutions) = none) :
    (turn (config.within top none) index vars l steps p).Aligned R
      (turn (config.within b.depth b.calls) index vars l' steps q) := by
  obtain ⟨count, state, env, v⟩ := p
  obtain ⟨count', state', env', w⟩ := q
  obtain ⟨rfl, rfl, rfl, hvalue⟩ := h
  dsimp only at hcalls hvalue
  rw [turn, turn]
  by_cases hinterrupted : env'.interrupted = true
  · rw [if_pos hinterrupted, if_pos hinterrupted]
    rfl
  rw [if_neg hinterrupted, if_neg hinterrupted]
  simp only [turnEvent?, hinterrupted, Bool.false_eq_true, if_false] at hdeep hstop
  have hadvance : state'.advance (config.within b.depth b.calls) (index.matching env'.providers)
      steps = state'.advance (config.within top none) (index.matching env'.providers) steps := by
    cases hcall : state'.predicateCall? with
    | none => rw [advance_within hcall, advance_within hcall]
    | some called =>
      obtain ⟨call, depth⟩ := called
      have hevent : state'.event? vars = some (.call call depth) := event?_of_predicateCall hcall
      have htop := hdeep call depth hevent
      have hnext : b.stop? state'.inferences count' (.call call depth) = none := by
        rwa [hevent] at hstop
      obtain ⟨hdepth, hlimit⟩ := Bounds.within_of_stop? hnext
      rw [advance_of_predicateCall hcall, advance_of_predicateCall hcall,
        resolve_within hdepth, resolve_within htop (by simp)]
      intro limit hmem
      have hle := hcalls limit hmem
      have hne := hlimit limit hmem
      dsimp only
      omega
  rw [hadvance]
  cases hmove : state'.advance (config.within top none) (index.matching env'.providers) steps with
  | proceed state => exact ⟨rfl, rfl, rfl, hvalue⟩
  | backtrack state =>
    dsimp only
    rw [retry_within, retry_within]
    exact retry_aligned ⟨rfl, rfl, rfl, hvalue⟩
  | error cause => rfl
  | unfinished => rfl
  | solution last =>
    obtain ⟨hdone, rfl⟩ := advance_eq_solution hmove
    have hlast : b.last ≠ some (count' + 1) := by
      simpa [event?, hdone, Bounds.stop?] using hstop
    obtain ⟨hsignal, henv, hvalue'⟩ :=
      hl.follows (last.solution vars) env' count' v w hvalue hlast
    have hcontinue := hl.continues (last.solution vars) env' v
    dsimp only
    generalize l (last.solution vars) env' v = reply at hcontinue henv hvalue' ⊢
    generalize l' (last.solution vars) env' w = reply' at hsignal henv hvalue' ⊢
    obtain ⟨signal, env₁, v'⟩ := reply
    obtain ⟨signal', env₂, w'⟩ := reply'
    dsimp only at hsignal hcontinue henv hvalue'
    subst hsignal hcontinue henv
    dsimp only
    rw [retry_within, retry_within]
    exact retry_aligned ⟨rfl, rfl, rfl, hvalue'⟩

/-- A turn at whose event a bounded search ends. -/
theorem turn_stopped (hl : l'.Follows l b.last R) {p : Progress α} {q : Progress β}
    (h : p.Aligned R q) {event : Event} {ending : Ending} (hevent : turnEvent? vars p = some event)
    (hstop : b.stop? p.state.inferences p.solutions event = some ending) :
    ∃ report, turn (config.within b.depth b.calls) index vars l' steps q = .ended report ∧
      report.ending = ending := by
  obtain ⟨count, state, env, v⟩ := p
  obtain ⟨count', state', env', w⟩ := q
  obtain ⟨rfl, rfl, rfl, hvalue⟩ := h
  dsimp only at hvalue hstop
  have hgoing : env'.interrupted = false := by
    by_contra hinterrupted
    simp [turnEvent?, hinterrupted] at hevent
  have hstate : state'.event? vars = some event := by simpa [turnEvent?, hgoing] using hevent
  rw [turn, hgoing, if_neg Bool.false_ne_true]
  cases event with
  | call call depth =>
    rw [advance_of_predicateCall (event?_eq_call hstate)]
    by_cases hdepth : b.depth ≤ depth
    · have hending : ending = .failed (.depthExceeded b.depth) := by
        simpa [Bounds.stop?, hdepth] using hstop.symm
      rw [resolve_of_depth_le hdepth]
      exact ⟨_, rfl, hending.symm⟩
    · obtain ⟨hlimit, hending⟩ : b.calls = some state'.inferences ∧
          .failed (.inferenceLimit state'.inferences) = ending := by
        simpa [Bounds.stop?, hdepth, Option.filter_eq_some_iff, and_assoc] using hstop
      rw [resolve_of_limit (Nat.not_le.1 hdepth) hlimit]
      · exact ⟨_, rfl, hending⟩
      · rfl
  | solution s =>
    obtain ⟨hdone, rfl⟩ := event?_eq_solution hstate
    obtain ⟨hlast, hending⟩ : b.last = some (count' + 1) ∧
        .finished ⟨count' + 1, state'.inferences, true⟩ = ending := by
      simpa [Bounds.stop?] using hstop
    have habort := hl.stops (state'.solution vars) env' count' v w hvalue hlast
    rw [advance_of_done hdone]
    dsimp only
    generalize l' (state'.solution vars) env' w = reply at habort ⊢
    obtain ⟨signal, env₁, w'⟩ := reply
    dsimp only at habort
    subst habort
    exact ⟨_, rfl, hending⟩

end Search

end Lockstep

/-- The counters of a search after a turn: those of the search that goes on, or those it
ends with. -/
def Turn.Counts {α : Type} (inferences solutions : Nat) : Turn α → Prop
  | .going p => p.state.inferences = inferences ∧ p.solutions = solutions
  | .ended report => ∀ outcome, report.ending = .finished outcome →
    outcome.inferences = inferences ∧ outcome.solutions = solutions

/-- The value of the listener after a turn. -/
def Turn.value {α : Type} : Turn α → α
  | .going p => p.value
  | .ended report => report.value

namespace Search

variable {α : Type} {config : Config} {index : ClauseIndex} {vars : List Var} {steps : Nat}
  {l : Listener α} {p : Progress α}

/-- Going back counts nothing. -/
theorem retry_counts : (retry config steps p).Counts p.state.inferences p.solutions := by
  obtain ⟨count, state, env, v⟩ := p
  rw [retry]
  cases hback : state.backtrack config steps with
  | resumed last => exact ⟨inferences_backtrack (congrArg Resumption.state? hback), rfl⟩
  | exhausted last =>
    rintro outcome ⟨rfl⟩
    exact ⟨inferences_backtrack (congrArg Resumption.state? hback), rfl⟩
  | unfinished =>
    intro outcome hending
    cases hending

/-- A turn counts its event. -/
theorem turn_counts :
    (turn config index vars l steps p).Counts
      (p.state.inferences + (turnEvent? vars p).elim 0 Event.calls)
      (p.solutions + (turnEvent? vars p).elim 0 Event.solutions) := by
  obtain ⟨count, state, env, v⟩ := p
  rw [turn]
  by_cases hinterrupted : env.interrupted = true
  · rw [if_pos hinterrupted]
    intro outcome hending
    cases hending
  rw [if_neg hinterrupted]
  have hevent : turnEvent? vars ⟨count, state, env, v⟩ = state.event? vars := if_neg hinterrupted
  rw [hevent]
  dsimp only
  have hunsolved : state.continuation ≠ [] → (state.event? vars).elim 0 Event.solutions = 0 := by
    intro hmore
    cases hnext : state.event? vars with
    | none => rfl
    | some event =>
      cases event with
      | call call depth => rfl
      | solution s => exact absurd (event?_eq_solution hnext).1 hmore
  cases hmove : state.advance config (index.matching env.providers) steps with
  | proceed last =>
    have hmore : state.continuation ≠ [] := fun hdone => by simp [advance_of_done hdone] at hmove
    have hcalls := inferences_of_advance vars (congrArg Move.state? hmove)
    exact ⟨hcalls, by rw [hunsolved hmore]; rfl⟩
  | backtrack last =>
    have hmore : state.continuation ≠ [] := fun hdone => by simp [advance_of_done hdone] at hmove
    have hcalls := inferences_of_advance vars (congrArg Move.state? hmove)
    rw [hunsolved hmore, ← hcalls]
    exact retry_counts
  | error cause =>
    intro outcome hending
    cases hending
  | unfinished =>
    intro outcome hending
    cases hending
  | solution last =>
    have hcalls := inferences_of_advance vars (congrArg Move.state? hmove)
    obtain ⟨hdone, rfl⟩ := advance_eq_solution hmove
    have hsolved : last.event? vars = some (.solution (last.solution vars)) := by
      simp [event?, hdone]
    rw [← hcalls, hsolved]
    dsimp only
    cases l (last.solution vars) env v with
    | mk signal answer =>
      cases signal with
      | abort =>
        rintro outcome ⟨rfl⟩
        exact ⟨rfl, rfl⟩
      | «continue» => exact retry_counts

/-- The events of a search: that of a turn, and those of the turns after it. -/
theorem events_succ : events config index vars l (steps + 1) p =
    (turnEvent? vars p).toList ++ match turn config index vars l steps p with
      | .going q => events config index vars l steps q
      | .ended _ => [] := rfl

/-- A search that comes to its end has found the solutions among its events. -/
theorem solutions_of_run {outcome : Outcome}
    (h : (run config index vars l steps p).ending = .finished outcome) :
    outcome.solutions =
      p.solutions + ((events config index vars l steps p).map Event.solutions).sum := by
  induction steps generalizing p with
  | zero => cases h
  | succ steps ih =>
    have hevent : ((turnEvent? vars p).toList.map Event.solutions).sum =
        (turnEvent? vars p).elim 0 Event.solutions := by
      cases turnEvent? vars p <;> rfl
    have hcounts : (turn config index vars l steps p).Counts _ _ := turn_counts
    rw [run] at h
    rw [events_succ, List.map_append, List.sum_append, hevent, ← Nat.add_assoc]
    cases hnext : turn config index vars l steps p with
    | going q =>
      rw [hnext] at h hcounts
      rw [← hcounts.2]
      exact ih h
    | ended report =>
      rw [hnext] at h hcounts
      exact (hcounts outcome h).2

/-- Going back leaves the value of the listener alone. -/
theorem value_retry : (retry config steps p).value = p.value := by
  obtain ⟨count, state, env, v⟩ := p
  rw [retry]
  cases state.backtrack config steps <;> rfl

/-- A listener that keeps solutions is given the one of the turn. -/
theorem value_turn_recording {p : Progress (List Solution × α)} :
    (turn config index vars l.recording steps p).value.1 =
      p.value.1 ++ (turnEvent? vars p).toList.filterMap Event.solution? := by
  obtain ⟨count, state, env, given, v⟩ := p
  rw [turn, turnEvent?]
  by_cases hinterrupted : env.interrupted = true
  · simp [hinterrupted, Turn.value]
  simp only [hinterrupted, if_false, Bool.false_eq_true]
  by_cases hdone : state.continuation = []
  · have hsolved : state.event? vars = some (.solution (state.solution vars)) := by
      simp [event?, hdone]
    rw [advance_of_done hdone, hsolved]
    dsimp only [Listener.recording]
    cases l (state.solution vars) env v with
    | mk signal answer =>
      cases signal with
      | abort => rfl
      | «continue» => rw [value_retry]; rfl
  · have hunsolved : (state.event? vars).toList.filterMap Event.solution? = [] := by
      cases hnext : state.event? vars with
      | none => rfl
      | some event =>
        cases event with
        | call call depth => rfl
        | solution s => exact absurd (event?_eq_solution hnext).1 hdone
    rw [hunsolved, List.append_nil]
    cases hmove : state.advance config (index.matching env.providers) steps with
    | proceed | error | unfinished => rfl
    | backtrack last => exact congrArg Prod.fst value_retry
    | solution last => exact absurd (advance_eq_solution hmove).1 hdone

/-- A listener that keeps solutions is given those among the events. -/
theorem value_run_recording {p : Progress (List Solution × α)} :
    (run config index vars l.recording steps p).value.1 =
      p.value.1 ++ (events config index vars l.recording steps p).filterMap Event.solution? := by
  induction steps generalizing p with
  | zero => simp [run, events]
  | succ steps ih =>
    have hturn : (turn config index vars l.recording steps p).value.1 = _ := value_turn_recording
    rw [run, events_succ, List.filterMap_append, ← List.append_assoc, ← hturn]
    cases turn config index vars l.recording steps p with
    | going q => exact ih
    | ended report => simp [Turn.value]

/-- A search with bounds takes the turns of one without up to the event that ends it. -/
theorem run_cut {β : Type} {b : Bounds} {R : Nat → α → β → Prop} {l' : Listener β} {top : Nat}
    (hl : l'.Follows l b.last R) {q : Progress β} (h : p.Aligned R q)
    (hcalls : ∀ limit ∈ b.calls, p.state.inferences ≤ limit)
    (hdeep : ∀ depth ∈ (events (config.within top none) index vars l steps p).filterMap
      Event.depth?, depth < top) :
    let course := events (config.within top none) index vars l steps p
    let upTo := b.cut p.state.inferences p.solutions course
    events (config.within b.depth b.calls) index vars l' steps q = upTo.1 ∧
      (run (config.within b.depth b.calls) index vars l' steps q).ending =
        upTo.2.getD (run (config.within top none) index vars l steps p).ending := by
  induction steps generalizing p q with
  | zero => exact ⟨rfl, rfl⟩
  | succ steps ih =>
    have hsame : turnEvent? vars q = turnEvent? vars p := by
      rw [turnEvent?, turnEvent?, h.environment, h.state]
    simp only [events_succ, List.filterMap_append, List.mem_append] at hdeep
    simp only [events_succ, run, hsame]
    cases hstop : (turnEvent? vars p).bind (b.stop? p.state.inferences p.solutions) with
    | some ending =>
      obtain ⟨event, hevent, hstop⟩ := Option.bind_eq_some_iff.1 hstop
      have hturn : ∃ report, turn (config.within b.depth b.calls) index vars l' steps q =
        .ended report ∧ report.ending = ending := turn_stopped hl h hevent hstop
      obtain ⟨report, hturn, rfl⟩ := hturn
      simp [hturn, hevent, Bounds.cut, hstop]
    | none =>
      have hnext : ∀ call depth, turnEvent? vars p = some (.call call depth) → depth < top := by
        intro call depth hevent
        exact hdeep depth (.inl (by simp [hevent, Event.depth?]))
      have hturn : (turn (config.within top none) index vars l steps p).Aligned R
          (turn (config.within b.depth b.calls) index vars l' steps q) :=
        turn_aligned hl h hcalls hnext hstop
      have hcounts : (turn (config.within top none) index vars l steps p).Counts _ _ := turn_counts
      have hcalls' := Bounds.calls_le_of_stop? hcalls hstop
      simp only [Bounds.cut_of_stop? hstop]
      generalize turn (config.within b.depth b.calls) index vars l' steps q = next' at hturn ⊢
      generalize turn (config.within top none) index vars l steps p = next at hdeep hturn hcounts ⊢
      cases next with
      | ended report =>
        cases next' with
        | ended report' => exact ⟨rfl, hturn⟩
        | going q' => exact hturn.elim
      | going p' =>
        cases next' with
        | ended report' => exact hturn.elim
        | going q' =>
          have hcut := ih hturn (by rwa [hcounts.1]) fun depth hdepth => hdeep depth (.inr hdepth)
          rw [hcounts.1, hcounts.2] at hcut
          exact ⟨congrArg _ hcut.1, hcut.2⟩

end Search

namespace Engine

/-- What ends a search early only cuts it short. Take the events of a search that is neither
bounded in its calls nor ended by its listener, and the depth of which is out of reach. With
a bound on the depth, a bound on the number of calls and a listener that ends the search at
a solution, each of which may be missing, the search delivers the solutions up to the first
event that ends it, and ends as this event says, with its counters; if there is none it
ends as the search without bounds. The search for one solution has it if and only if the
search without bounds has a solution before an event that ends it. -/
theorem solve_bounded {α : Type} (engine : Engine) (goal : Term) (listener : Listener α)
    (value : α) (top steps : Nat)
    (hdeep : ∀ depth ∈ (engine.course top steps goal listener value).filterMap Event.depth?,
      depth < top) (b : Bounds) :
    let course := engine.course top steps goal listener value
    let upTo := b.cut 0 0 course
    (engine.bounded b).delivered steps goal (listener.stopAt b.last) (0, value) =
        upTo.1.filterMap Event.solution? ∧
      ((engine.bounded b).solve steps goal (listener.stopAt b.last) (0, value)).ending =
        upTo.2.getD ((engine.bounded (.deep top)).solve steps goal (listener.stopAt none)
          (0, value)).ending ∧
      (((engine.bounded b).ask steps goal).1.hasSolution = true ↔
        ∃ before s after, course = before ++ .solution s :: after ∧
          (Bounds.cut ⟨b.depth, b.calls, none⟩ 0 0 before).2 = none) := by
  have hcalls : ∀ limit ∈ b.calls, 0 ≤ limit := fun limit _ => limit.zero_le
  have hfollows := listener.stopAt_follows b.last
  have hsolved : (engine.begin goal (0, value)).Aligned Listener.Counted
      (engine.begin goal (0, value)) := ⟨rfl, rfl, rfl, rfl, rfl⟩
  have hkept : (engine.begin goal (0, value)).Aligned
      (fun count v (w : List Solution × Nat × α) => Listener.Counted count v w.2)
      (engine.begin goal ([], 0, value)) := ⟨rfl, rfl, rfl, rfl, rfl⟩
  have hasked : (engine.begin goal (0, value)).Aligned (fun count _ _ => count = 0)
      (engine.begin goal ()) := ⟨rfl, rfl, rfl, rfl⟩
  refine ⟨?_, (Search.run_cut hfollows hsolved hcalls hdeep).2, ?_⟩
  · have hevents := (Search.run_cut hfollows.recording hkept hcalls hdeep).1
    have hrecorded : (engine.bounded b).delivered steps goal (listener.stopAt b.last) (0, value) =
        _ := Search.value_run_recording
    exact hrecorded.trans (congrArg (List.filterMap Event.solution?) hevents)
  · have hending : ((engine.bounded b).ask steps goal).1 =
        (Bounds.cut ⟨b.depth, b.calls, some 1⟩ 0 0
          (engine.course top steps goal listener value)).2.getD
        ((engine.bounded (.deep top)).solve steps goal (listener.stopAt none) (0, value)).ending :=
      (Search.run_cut (b := ⟨b.depth, b.calls, some 1⟩) (first_follows (l := listener)) hasked
        hcalls hdeep).2
    rw [hending]
    refine Iff.trans ?_ Bounds.cut_first
    cases hcut : (Bounds.cut ⟨b.depth, b.calls, some 1⟩ 0 0
        (engine.course top steps goal listener value)).2 with
    | some ending => rfl
    | none =>
      have hsum := Bounds.solutions_of_cut_first hcut
      rw [Option.getD_none, Option.any_none]
      cases hend : ((engine.bounded (.deep top)).solve steps goal (listener.stopAt none)
          (0, value)).ending with
      | failed error => rfl
      | unfinished => rfl
      | finished outcome =>
        have hcount : outcome.solutions =
            0 + ((engine.course top steps goal listener value).map Event.solutions).sum :=
          Search.solutions_of_run hend
        have hzero : outcome.solutions = 0 := by omega
        simp [Ending.hasSolution, hzero]

/-- Solving `p(Z)` by the rule and the fact takes calls at the depths 0 and 1, the second of
which is refused under a bound of one on the depth or on the number of calls. -/
theorem solve_bounded_sorted :
    (∀ depth ∈ (sorted.course 2 12 (.apply "p" [.var ⟨"Z", none⟩]) first ()).filterMap
        Event.depth?, depth < 2) ∧
      ((sorted.bounded ⟨1, none, none⟩).solve 12 (.apply "p" [.var ⟨"Z", none⟩])
        (first.stopAt none) (0, ())).ending = .failed (.depthExceeded 1) ∧
      ((sorted.bounded ⟨2, some 1, none⟩).solve 12 (.apply "p" [.var ⟨"Z", none⟩])
        (first.stopAt none) (0, ())).ending = .failed (.inferenceLimit 1) := by
  have hdepths : (sorted.course 2 12 (.apply "p" [.var ⟨"Z", none⟩]) first ()).filterMap
      Event.depth? = [0, 1] := by cbv
  have hdeep : ∀ depth ∈ (sorted.course 2 12 (.apply "p" [.var ⟨"Z", none⟩]) first ()).filterMap
      Event.depth?, depth < 2 := by simp [hdepths]
  have hdepth : (Bounds.cut ⟨1, none, none⟩ 0 0
      (sorted.course 2 12 (.apply "p" [.var ⟨"Z", none⟩]) first ())).2 =
      some (.failed (.depthExceeded 1)) := by cbv
  have hcalls : (Bounds.cut ⟨2, some 1, none⟩ 0 0
      (sorted.course 2 12 (.apply "p" [.var ⟨"Z", none⟩]) first ())).2 =
      some (.failed (.inferenceLimit 1)) := by cbv
  refine ⟨hdeep, ?_, ?_⟩
  · rw [(solve_bounded sorted _ first () 2 12 hdeep ⟨1, none, none⟩).2.1, hdepth]
    rfl
  · rw [(solve_bounded sorted _ first () 2 12 hdeep ⟨2, some 1, none⟩).2.1, hcalls]
    rfl

end Engine

end ClauseResolution
