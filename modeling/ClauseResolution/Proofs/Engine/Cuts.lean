import ClauseResolution.Proofs.Engine.Freshness
import ClauseResolution.Proofs.Engine.Termination
import ClauseResolution.Proofs.Search.Events
import ClauseResolution.Proofs.Search.Moves
import ClauseResolution.Proofs.Search.Nesting

/-!
# The targets of cuts outlive the choice points

A frame names the height to which a cut in it goes, and may be kept for long, by the goals that
remain and by choice points. In every state that a search reaches the heights do not increase
along the goals that are to be done one after the other, and they are at most the number of
choice points below. Besides, the choice points below the height of a frame stay the same for as
long as the frame is kept. So a cut goes back to the choice points that were there when the
frame was made.
-/

namespace ClauseResolution

open Relation (ReflTransGen)

/-- The frames that a choice point keeps: the goal that it offers, if it offers one, and those
after it. -/
def Alternative.saved : Alternative → List Frame
  | .clauses _ _ _ next => next
  | .goal target barrier depth next => .goal target barrier depth :: next

/-- The next thing that the frame does is to cut. -/
def Frame.IsCut (σ : Store) (c : Context) (frame : Frame) : Prop :=
  (∃ height, frame = .cutTo height) ∨ ∃ depth, frame.call? σ c = some (⟨"!", []⟩, depth)

/-- A height from which frames do not increase is above all of them. -/
theorem Frame.Descending.height_le {frame : Frame} {frames : List Frame} {height : Nat}
    (h : Descending height frames) (hmem : frame ∈ frames) : frame.height ≤ height := by
  induction frames generalizing height with
  | nil => cases hmem
  | cons first frames ih =>
    rcases List.mem_cons.1 hmem with rfl | hmem
    · exact h.1
    · exact (ih h.2 hmem).trans h.1

/-- Each branch is nested at the number of branches below it. -/
theorem Branch.AllNested.getElem? {branches : List Branch} (h : Branch.AllNested branches) {i : Nat}
    {branch : Branch} (hbranch : branches.reverse[i]? = some branch) : branch.Nested i := by
  induction branches with
  | nil => simp at hbranch
  | cons newest branches ih =>
    rw [List.reverse_cons] at hbranch
    rcases lt_trichotomy i branches.reverse.length with hlt | rfl | hgt
    · rw [List.getElem?_append_left hlt] at hbranch
      exact ih h.2 hbranch
    · obtain rfl : newest = branch := by simpa using hbranch
      rw [List.length_reverse]
      exact h.1
    · rw [List.getElem?_eq_none (by rw [List.length_append, List.length_singleton]; omega)]
        at hbranch
      cases hbranch

namespace Search

/-- Along the goals that a choice point keeps the heights do not increase, and they are at most the
number of choice points below it. -/
def SavedNested (choices : Array ChoicePoint) : Prop :=
  ∀ (i : Nat) (point : ChoicePoint), choices[i]? = some point →
    Frame.Descending i point.alternative.saved

/-- Cuts are nested. Along the goals that remain the heights do not increase, and they are at most
the number of choice points. Along the goals that a choice point keeps they are at most the number
of choice points below it. -/
structure CutsNested (state : Search) : Prop where
  /-- The goals that remain. -/
  current : Frame.Descending state.choices.size state.continuation
  /-- The goals that the choice point at a position keeps. -/
  saved : SavedNested state.choices

/-- These frames are still to be done, now or when the search has gone back. -/
def Retains (state : Search) (frames : List Frame) : Prop :=
  frames <:+ state.continuation ∨ ∃ point ∈ state.choices, frames <:+ point.alternative.saved

variable {config : Config} {clausesOf : String → List Clause} {steps : Nat}
  {s t state : Search} {call : Call} {clauses : List Clause} {barrier depth : Nat}
  {frame : Frame} {next rest : List Frame}

/-- A search whose view is nested has its cuts nested. -/
theorem cutsNested_of_view (h : state.view.Nested) : state.CutsNested where
  current := by
    have hcurrent := h.continuation
    rwa [length_branches_view] at hcurrent
  saved i point hpoint := by
    have hbranch : state.view.branches.reverse[i]? = some (point.branch state.store) := by
      rw [view, points, ← List.map_reverse, List.reverse_reverse, List.getElem?_map,
        Array.getElem?_toList, hpoint]
      rfl
    have hnested := h.branches.getElem? hbranch
    obtain ⟨c, mark, alternative⟩ := point
    cases alternative <;> exact hnested

/-- Where all frames are below a height, so is one that is retained. -/
theorem Retains.height_le_of_descending {i : Nat} (h : state.Retains (frame :: rest))
    (hcurrent : Frame.Descending i state.continuation)
    (hsaved : ∀ point ∈ state.choices, Frame.Descending i point.alternative.saved) :
    frame.height ≤ i := by
  rcases h with hsuffix | ⟨point, hpoint, hsuffix⟩
  · exact hcurrent.height_le (hsuffix.subset List.mem_cons_self)
  · exact (hsaved point hpoint).height_le (hsuffix.subset List.mem_cons_self)

/-- What choice points keep, each below its own position, is below the number of them. -/
theorem SavedNested.descending {choices : Array ChoicePoint} (h : SavedNested choices) :
    ∀ point ∈ choices, Frame.Descending choices.size point.alternative.saved := by
  intro point hpoint
  obtain ⟨i, hi, rfl⟩ := Array.mem_iff_getElem.1 hpoint
  exact (h i _ (Array.getElem?_eq_getElem hi)).mono hi.le

/-- A frame that is retained cuts to a height that is at most the number of choice points. -/
theorem CutsNested.height_le (h : state.CutsNested) (hretains : state.Retains (frame :: rest)) :
    frame.height ≤ state.choices.size :=
  hretains.height_le_of_descending h.current h.saved.descending

/-- What entering a clause does to the stack: the clauses left make a choice point, and a cut in
the body goes back below it. -/
theorem choices_of_enter_eq_entered
    (h : enter config steps call clauses depth next s = .entered t) :
    (t.choices = s.choices ∨ ∃ point, point.alternative.saved = next ∧
        t.choices = s.choices.push point) ∧
      (t.continuation = next ∨
        ∃ body, t.continuation = .goal body s.choices.size (depth + 1) :: next) := by
  obtain ⟨σ, c, continuation, choices, inferences⟩ := s
  rw [enter] at h
  dsimp only at h
  cases hmatch : firstMatch config steps c σ.size call σ clauses with
  | missing | unfinished => simp [hmatch] at h
  | found τ d body isFact untried =>
    simp only [hmatch, Entry.entered.injEq] at h
    subst h
    constructor
    · cases untried with
      | nil => exact Or.inl rfl
      | cons clause untried => exact Or.inr ⟨_, rfl, rfl⟩
    · cases isFact with
      | true => exact Or.inl rfl
      | false => exact Or.inr ⟨body, rfl⟩

end Search

/-- What a step does to the stack: on its way forward it adds choice points at the top or drops
some there, and where it fails it leaves them as they are. -/
def Move.Stacks (choices : Array ChoicePoint) : Move → Prop
  | .proceed state =>
    choices.toList <+: state.choices.toList ∨ state.choices.toList <+: choices.toList
  | .backtrack state | .solution state => state.choices = choices
  | .error _ | .unfinished => True

namespace Search

variable {config : Config} {clausesOf : String → List Clause} {steps : Nat}
  {s t state : Search} {call : Call} {barrier depth : Nat} {frame : Frame} {rest : List Frame}

/-- A step changes the stack at its top. -/
theorem advance_stacks : (state.advance config clausesOf steps).Stacks state.choices := by
  have hpush : ∀ point, state.choices.toList <+: (state.choices.push point).toList := by
    intro point
    rw [Array.toList_push]
    exact List.prefix_append _ _
  have hdoes := state.does_advance config clausesOf steps
  generalize state.advance config clausesOf steps = move at hdoes ⊢
  cases hdoes with
  | error | unfinished => trivial
  | solution | failed | clashed | refuted => rfl
  | continued | unified | differed => exact Or.inl (List.prefix_refl _)
  | cut height frames =>
    right
    rw [Search.cut, Array.toList_shrink]
    exact List.take_prefix _ _
  | offered => exact Or.inl (hpush _)
  | entered henter =>
    rcases (choices_of_enter_eq_entered henter).1 with hsame | ⟨point, _, hpushed⟩
    · exact Or.inl (by rw [hsame])
    · exact Or.inl (by rw [hpushed]; exact hpush point)
  | missed henter =>
    have hsame := choices_of_enter_eq_missed henter
    exact hsame

/-- Entering a clause adds at most one choice point at the top, and all frames that are then
retained cut to heights below it. -/
theorem enter_stacks {clauses : List Clause} {next : List Frame}
    (hnext : Frame.Descending s.choices.size next) (hsaved : SavedNested s.choices)
    (henter : enter config steps call clauses depth next s = .entered t) :
    s.choices.toList <+: t.choices.toList ∧
      ∀ frame rest, t.Retains (frame :: rest) → frame.height ≤ s.choices.size := by
  obtain ⟨hchoices, hcontinuation⟩ := choices_of_enter_eq_entered henter
  have hcurrent : Frame.Descending s.choices.size t.continuation := by
    rcases hcontinuation with heq | ⟨body, heq⟩
    · rw [heq]
      exact hnext
    · rw [heq]
      exact ⟨le_refl _, hnext⟩
  rcases hchoices with heq | ⟨point, hpoint, heq⟩
  · refine ⟨by rw [heq], fun frame rest h => h.height_le_of_descending hcurrent ?_⟩
    rw [heq]
    exact hsaved.descending
  · refine ⟨?_, fun frame rest h => h.height_le_of_descending hcurrent ?_⟩
    · rw [heq, Array.toList_push]
      exact List.prefix_append _ _
    · -- The new choice point keeps the goals after the call, and these were there before it.
      intro other hother
      rw [heq] at hother
      rcases Array.mem_push.1 hother with hother | rfl
      · exact hsaved.descending other hother
      · rw [hpoint]
        exact hnext

/-- What the newest choice point and the older ones keep, each below its own position. -/
theorem SavedNested.of_back? {choices : Array ChoicePoint} {point : ChoicePoint}
    (h : SavedNested choices) (hlast : choices.back? = some point) :
    choices.pop.toList = choices.toList.take choices.pop.size ∧
      Frame.Descending choices.pop.size point.alternative.saved ∧ SavedNested choices.pop := by
  obtain ⟨older, rfl⟩ := Array.back?_eq_some_iff.1 hlast
  rw [Array.pop_push]
  refine ⟨by simp, h older.size point (by simp), fun i other hother => h i other ?_⟩
  have hlt := (Array.getElem?_eq_some_iff.1 hother).1
  rwa [Array.getElem?_push_lt hlt, ← Array.getElem?_eq_getElem hlt]

/-- Going back keeps the choice points below a position, and all frames that are then retained cut
to heights below it. -/
theorem backtrack_stacks (hsaved : SavedNested s.choices)
    (hback : s.backtrack config steps = .resumed t) :
    ∃ i ≤ s.choices.size, s.choices.toList.take i <+: t.choices.toList ∧
      ∀ frame rest, t.Retains (frame :: rest) → frame.height ≤ i := by
  fun_induction backtrack config steps s with
  | case1 | case5 => cases hback
  | case2 σ c continuation choices inferences context mark goal barrier depth next hlast σ' =>
    cases hback
    obtain ⟨htake, hpoint, holder⟩ := hsaved.of_back? hlast
    refine ⟨choices.pop.size, by simp, by rw [← htake], fun frame rest h => ?_⟩
    exact h.height_le_of_descending hpoint holder.descending
  | case3 σ c continuation choices inferences context mark call untried depth next hlast σ' state'
      henter =>
    cases hback
    obtain ⟨htake, hpoint, holder⟩ := hsaved.of_back? hlast
    obtain ⟨hbelow, hheights⟩ := enter_stacks hpoint holder henter
    exact ⟨choices.pop.size, by simp, by rwa [← htake], hheights⟩
  | case4 σ c continuation choices inferences context mark call untried depth next hlast σ' state'
      henter ih =>
    obtain ⟨htake, _, holder⟩ := hsaved.of_back? hlast
    -- A look in vain leaves the stack alone, so the search goes on below the newest choice point.
    have hmissed : state'.choices = choices.pop := choices_of_enter_eq_missed henter
    rw [hmissed] at ih
    obtain ⟨i, hi, hbelow, hheights⟩ := ih holder hback
    rw [htake, List.take_take, min_eq_left hi] at hbelow
    exact ⟨i, hi.trans (by simp), hbelow, hheights⟩

end Search

/-- What a search does next keeps its cuts nested. -/
theorem Exploration.Next.nested {config : Config} {e e' : Exploration} (hnext : Next config e e')
    (h : e.Nested) : e'.Nested := by
  cases hnext with
  | @proceed clausesOf steps _ _ hstep =>
    have hstage : (e.advance config clausesOf steps).Nested := advance_nested h
    rwa [hstep] at hstage
  | @back clausesOf steps steps' _ last _ hstep hback =>
    have hstage : (e.advance config clausesOf steps).Nested := advance_nested h
    have hlast : Branch.AllNested last.branches := by
      rcases hstep with hstep | hstep <;> rwa [hstep] at hstage
    exact backtrack_nested hlast hback

namespace Search

variable {α : Type} {config : Config} {index : ClauseIndex} {vars : List Var}
  {listener : Listener α} {p q : Progress α} {frame : Frame} {rest : List Frame}

/-- One turn leads from a search under way to another one, in which these frames are still to be
done. -/
def FollowsRetaining (config : Config) (index : ClauseIndex) (vars : List Var)
    (listener : Listener α) (frames : List Frame) (p q : Progress α) : Prop :=
  Follows config index vars listener p q ∧ q.state.Retains frames

/-- In a search that is reached cuts are nested. -/
theorem nested_of_reached (hsound : p.state.Sound) (h : p.state.view.Nested)
    (hreached : ReflTransGen (Follows config index vars listener) p q) :
    q.state.Sound ∧ q.state.view.Nested := by
  induction hreached with
  | refl => exact ⟨hsound, h⟩
  | tail _ hfollows ih =>
    obtain ⟨hsound, h⟩ := ih
    obtain ⟨_, hturn⟩ := hfollows
    obtain ⟨hsound', hnext⟩ := turn_going hsound hturn
    exact ⟨hsound', hnext.nested h⟩

/-- In a turn the choice points below the height of a frame stay, if the frame is retained before
and after. -/
theorem Follows.take_choices (hfollows : Follows config index vars listener p q)
    (hp : p.state.CutsNested) (hq : q.state.CutsNested)
    (hbefore : p.state.Retains (frame :: rest)) (hafter : q.state.Retains (frame :: rest)) :
    q.state.choices.toList.take frame.height = p.state.choices.toList.take frame.height := by
  have halike : ∀ {l l' : List ChoicePoint}, l <+: l' → frame.height ≤ l.length →
      l'.take frame.height = l.take frame.height := by
    rintro l _ ⟨more, rfl⟩ hle
    exact List.take_append_of_le_length hle
  have hsizes : frame.height ≤ p.state.choices.toList.length ∧
      frame.height ≤ q.state.choices.toList.length := by
    simpa using And.intro (hp.height_le hbefore) (hq.height_le hafter)
  obtain ⟨steps, hturn⟩ := hfollows
  have hstacks : (p.state.advance config (index.matching p.environment.providers) steps).Stacks
      p.state.choices := advance_stacks
  rcases turn_going_cases hturn with hmove | ⟨state, hmove, hback⟩
  · rw [hmove] at hstacks
    rcases hstacks with hbelow | hbelow
    · exact halike hbelow hsizes.1
    · exact (halike hbelow hsizes.2).symm
  · have hchoices : state.choices = p.state.choices := by
      rcases hmove with hmove | hmove <;> rwa [hmove] at hstacks
    obtain ⟨i, hi, hbelow, hheights⟩ :=
      backtrack_stacks (by rw [hchoices]; exact hp.saved) hback
    rw [hchoices] at hbelow
    have hle := hheights frame rest hafter
    rw [halike hbelow (by rw [List.length_take]; omega), List.take_take, min_eq_left hle]

/-- The choice points below the height of a frame stay for as long as the frame is retained. -/
theorem take_choices_of_retaining (hsound : p.state.Sound) (h : p.state.view.Nested)
    (hretains : p.state.Retains (frame :: rest))
    (hturns : ReflTransGen (FollowsRetaining config index vars listener (frame :: rest)) p q) :
    q.state.Retains (frame :: rest) ∧ q.state.CutsNested ∧
      q.state.choices.toList.take frame.height = p.state.choices.toList.take frame.height := by
  suffices hall : q.state.Retains (frame :: rest) ∧ (q.state.Sound ∧ q.state.view.Nested) ∧
      q.state.choices.toList.take frame.height = p.state.choices.toList.take frame.height from
    ⟨hall.1, cutsNested_of_view hall.2.1.2, hall.2.2⟩
  induction hturns with
  | refl => exact ⟨hretains, ⟨hsound, h⟩, rfl⟩
  | @tail q r _ hfollows ih =>
    obtain ⟨hbefore, ⟨hsound, h⟩, hsame⟩ := ih
    obtain ⟨hfollows, hafter⟩ := hfollows
    have hnext := nested_of_reached hsound h (.single hfollows)
    refine ⟨hafter, hnext, Eq.trans ?_ hsame⟩
    exact hfollows.take_choices (cutsNested_of_view h) (cutsNested_of_view hnext.2) hbefore hafter

/-- A cut drops the choice points above the height of its frame. -/
theorem advance_of_isCut {clausesOf : String → List Clause} {steps : Nat} {state : Search}
    (hnext : state.continuation = frame :: rest)
    (hcut : frame.IsCut state.store state.context) :
    state.advance config clausesOf steps =
      .proceed (cut frame.height (state.continueWith rest)) := by
  obtain ⟨σ, c, continuation, choices, inferences⟩ := state
  dsimp only at hnext hcut
  subst hnext
  rcases hcut with ⟨height, rfl⟩ | ⟨depth, hcall⟩
  · rfl
  cases frame with
  | cutTo height => cases hcall
  | call callee barrier depth =>
    cases hcall
    rfl
  | goal target barrier depth =>
    rw [Frame.call?] at hcall
    rw [advance]
    cases hread : Call.ofOccurrence (σ.deref c target) with
    | error cause => simp [hread] at hcall
    | ok callee =>
      simp only [hread] at hcall
      cases hcall
      rfl

end Search

namespace Engine

variable {α : Type}

/-- In every state that is reached when a goal is solved, cuts are nested. And as long as a frame
is retained, the choice points below its height stay the same: when a cut in it is done, exactly
these are left. -/
theorem cuts_nested (engine : Engine) (goal : Term) (listener : Listener α) (value : α)
    {p : Progress α}
    (hreached : ReflTransGen
      (Search.Follows engine.config engine.index goal.normalize.vars listener)
      (engine.begin goal value) p) :
    p.state.CutsNested ∧
      ∀ frame rest, p.state.Retains (frame :: rest) →
        ∀ q, ReflTransGen (Search.FollowsRetaining engine.config engine.index goal.normalize.vars
            listener (frame :: rest)) p q →
          frame.height ≤ p.state.choices.size ∧
          q.state.choices.toList.take frame.height = p.state.choices.toList.take frame.height ∧
          (q.state.continuation = frame :: rest → frame.IsCut q.state.store q.state.context →
            ∀ clausesOf steps, ∃ next,
              q.state.advance engine.config clausesOf steps = .proceed next ∧
              next.continuation = rest ∧ next.choices.size = frame.height ∧
              next.choices.toList = p.state.choices.toList.take frame.height) := by
  obtain ⟨hsound, hnested⟩ := Search.nested_of_reached (Search.sound_start _)
    (by rw [begin, Search.view_start]; exact Exploration.nested_start _) hreached
  have hcuts := Search.cutsNested_of_view hnested
  refine ⟨hcuts, fun frame rest hretains q hturns => ?_⟩
  obtain ⟨hkept, hcuts', hsame⟩ :=
    Search.take_choices_of_retaining hsound hnested hretains hturns
  refine ⟨hcuts.height_le hretains, hsame, fun hnext hcut clausesOf steps => ?_⟩
  refine ⟨_, Search.advance_of_isCut hnext hcut, rfl, ?_, ?_⟩
  · have hle := hcuts'.height_le hkept
    simp [Search.cut, Search.continueWith, hle]
  · rw [← hsame]
    simp [Search.cut, Search.continueWith]

/-- In the goal `call(((true ; true), !)) ; true` the cut is reached over two choice points, one of
which was there when its frame was made. That one is left. -/
theorem cuts_nested_call :
    let choice := Term.apply ";" [.atom "true", .atom "true"]
    let goal := Term.apply ";" [.apply "call" [.apply "," [choice, .atom "!"]], .atom "true"]
    let frame : Frame := .goal ⟨0, 6, .atom "!"⟩ 1 0
    ∃ p q : Progress Unit,
      ReflTransGen (Search.Follows {} (ofConfig {}).index goal.normalize.vars first)
        ((ofConfig {}).begin goal ()) p ∧
      p.state.choices.size = 1 ∧ p.state.Retains [frame] ∧
      ReflTransGen
        (Search.FollowsRetaining {} (ofConfig {}).index goal.normalize.vars first [frame]) p q ∧
      q.state.choices.size = 2 ∧ q.state.continuation = [frame] ∧
      ∃ next, q.state.advance {} (fun _ => []) 0 = .proceed next ∧
        next.choices.toList = p.state.choices.toList := by
  intro choice goal frame
  let env : Environment := { Environment.initial with interrupted := false }
  let point : ChoicePoint := ⟨⟨0, 0⟩, 0, .goal ⟨0, 7, .atom "true"⟩ 0 0 []⟩
  let inner : ChoicePoint := ⟨⟨0, 0⟩, 0, .goal ⟨0, 5, .atom "true"⟩ 1 0 [frame]⟩
  let state (frames : List Frame) (choices : Array ChoicePoint) : Progress Unit :=
    ⟨0, ⟨.empty, ⟨0, 0⟩, frames, choices, 0⟩, env, ()⟩
  let called : Call := ⟨",", [⟨0, 3, choice⟩, ⟨0, 6, .atom "!"⟩]⟩
  let p₁ := state [.goal ⟨0, 1, .apply "call" [.apply "," [choice, .atom "!"]]⟩ 0 0] #[point]
  let p₂ := state [.call called 1 0] #[point]
  let p := state [.goal ⟨0, 3, choice⟩ 1 0, frame] #[point]
  let q₁ := state [.goal ⟨0, 4, .atom "true"⟩ 1 0, frame] #[point, inner]
  let q := state [frame] #[point, inner]
  have hp : ReflTransGen (Search.Follows {} (ofConfig {}).index goal.normalize.vars first)
      ((ofConfig {}).begin goal ()) p :=
    ((ReflTransGen.single (b := p₁) ⟨0, by cbv⟩).tail (c := p₂) ⟨0, by cbv⟩).tail ⟨0, by cbv⟩
  have hretains : p.state.Retains [frame] := Or.inl ⟨[_], rfl⟩
  have hq : ReflTransGen
      (Search.FollowsRetaining {} (ofConfig {}).index goal.normalize.vars first [frame]) p q :=
    (ReflTransGen.single (b := q₁) ⟨⟨0, by cbv⟩, Or.inl ⟨[_], rfl⟩⟩).tail
      ⟨⟨0, by cbv⟩, Or.inl ⟨[], rfl⟩⟩
  obtain ⟨_, hkept⟩ := cuts_nested (ofConfig {}) goal first () hp
  obtain ⟨_, _, hcuts⟩ := hkept frame [] hretains q hq
  obtain ⟨next, hnext, _, _, hchoices⟩ :=
    hcuts rfl (Or.inr ⟨0, by cbv⟩) (fun _ => []) 0
  exact ⟨p, q, hp, rfl, hretains, hq, rfl, rfl, next, hnext, hchoices⟩

end Engine

end ClauseResolution
