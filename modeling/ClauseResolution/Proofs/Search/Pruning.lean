import ClauseResolution.Proofs.Clause.Instance
import ClauseResolution.Proofs.Search.Nesting
import ClauseResolution.Proofs.Search.View

/-!
# Clauses for other predicates leave no trace

A provider may offer clauses for other predicates than the one that is called. Such a clause
never matches, and it leaves the store as it was. But it stays among the clauses that are left
to be tried, and so there are choice points from which nothing can come. A search is pruned by
dropping these choice points, with the clauses for other predicates at the choice points that
are kept; the targets of cuts are counted anew. A step of the pruned search, among the clauses
for the predicates that are called only, leads to what the step of the search leads to, pruned.
-/

namespace ClauseResolution

/-- The marks of choice points do not exceed the bound above them. -/
theorem Store.Supports.mark_le {σ : Store} {size : Nat} {points : List ChoicePoint}
    {point : ChoicePoint} (h : σ.Supports size points) (hpoint : point ∈ points) :
    point.mark ≤ size := by
  induction points generalizing size with
  | nil => cases hpoint
  | cons newest points ih =>
    obtain ⟨hmark, _, _, hrest⟩ := h
    rcases List.mem_cons.1 hpoint with rfl | hpoint
    · exact hmark
    · exact (ih hrest hpoint).trans hmark

/-- The clauses for one predicate. -/
def clausesFor (key : String) (clauses : List Clause) : List Clause :=
  clauses.filter fun clause => clause.key == key

/-- The first match, with the clauses for one predicate left to be tried. -/
def ClauseMatch.pruned (key : String) : ClauseMatch → ClauseMatch
  | .found σ c body isFact untried => .found σ c body isFact (clausesFor key untried)
  | .missing σ => .missing σ
  | .unfinished => .unfinished

section FirstMatch

variable {config : Config} {steps : Nat} {call : Call} {σ : Store} {c d : Context}

/-- Reclaiming from a mark on, and then from a mark below, is reclaiming from the one below. -/
theorem Config.reclaim_reclaim {m n : Nat} (h : m ≤ n) (σ : Store) :
    config.reclaim m (config.reclaim n σ) = config.reclaim m σ := by
  simp only [reclaim]
  split
  · simp [Store.truncate, min_eq_left h]
  · rfl

/-- There is nothing to reclaim beyond the end. -/
theorem Config.reclaim_size (σ : Store) : config.reclaim σ.size σ = σ := by
  simp only [reclaim, ite_eq_right_iff]
  intro _
  simp [Store.truncate, Store.size]

/-- A clause for another predicate has no head that fits a call. -/
theorem Call.not_fits_of_key_ne {clause : Clause} {args : List Term}
    (h : clause.key ≠ call.indicator) (hargs : args.length = clause.head.arity) :
    ¬ (call.functor = clause.head.functor ∧ call.args.length = args.length) := by
  rintro ⟨hfunctor, hlength⟩
  refine h ?_
  rw [Clause.key, Compound.indicator, ← hargs, indicator, hfunctor, hlength]

/-- A clause for another predicate does not match, and leaves the store as it was. -/
theorem Call.unifyHead_of_key_ne {clause : Clause} (h : clause.key ≠ call.indicator) :
    call.unifyHead config steps σ d (clause.rename c).head = .clash σ := by
  obtain ⟨args, varCount, hterm, hargs⟩ := clause.exists_term_rename_head c
  rw [unifyHead, hterm]
  exact if_neg (not_fits_of_key_ne h hargs)

/-- Clauses for other predicates can be left out when a matching clause is looked for. -/
theorem firstMatch_clausesFor {mark : Nat} {clauses : List Clause}
    (hmark : config.reclaim mark σ = σ) :
    firstMatch config steps c mark call σ (clausesFor call.indicator clauses) =
      (firstMatch config steps c mark call σ clauses).pruned call.indicator := by
  induction clauses generalizing σ with
  | nil => rfl
  | cons clause clauses ih =>
    by_cases hkey : clause.key = call.indicator
    · rw [clausesFor, List.filter_cons_of_pos (by simpa using hkey), firstMatch, firstMatch]
      cases call.unifyHead config steps σ (clause.rename c).context (clause.rename c).head with
      | unified τ d => rfl
      | unfinished => rfl
      | clash τ => exact ih (Config.reclaim_reclaim (le_refl mark) τ)
    · rw [clausesFor, List.filter_cons_of_neg (by simpa using hkey)]
      conv_rhs => rw [firstMatch, Call.unifyHead_of_key_ne hkey]
      dsimp only
      rw [hmark]
      exact ih hmark

end FirstMatch

/-- The frame with its height moved. -/
def Frame.moved (move : Nat → Nat) : Frame → Frame
  | .goal target barrier depth => .goal target (move barrier) depth
  | .call callee barrier depth => .call callee (move barrier) depth
  | .cutTo height => .cutTo (move height)

/-- Frames move alike where the heights do. -/
theorem Frame.map_moved_congr {move move' : Nat → Nat} {height : Nat} {frames : List Frame}
    (h : Frame.Descending height frames) (hmove : ∀ b ≤ height, move b = move' b) :
    frames.map (Frame.moved move) = frames.map (Frame.moved move') := by
  induction frames generalizing height with
  | nil => rfl
  | cons frame frames ih =>
    obtain ⟨hle, hrest⟩ := h
    have hframe : frame.moved move = frame.moved move' := by
      cases frame with
      | goal target barrier depth => exact congrArg (Frame.goal target · depth) (hmove _ hle)
      | call callee barrier depth => exact congrArg (Frame.call callee · depth) (hmove _ hle)
      | cutTo height => exact congrArg Frame.cutTo (hmove _ hle)
    rw [List.map_cons, List.map_cons, hframe, ih hrest fun b hb => hmove b (hb.trans hle)]

namespace ChoicePoint

/-- Something is left to be tried that can match. -/
def isLive (point : ChoicePoint) : Bool :=
  match point.alternative with
  | .clauses call untried _ _ => !(clausesFor call.indicator untried).isEmpty
  | .goal .. => true

/-- The number of choice points below a height, the newest of them first, from which something
can come. -/
def liveBelow (points : List ChoicePoint) (height : Nat) : Nat :=
  (points.drop (points.length - height)).countP isLive

/-- The choice point with the clauses for the predicate that is called only. -/
def pruned (move : Nat → Nat) (point : ChoicePoint) : ChoicePoint where
  context := point.context
  mark := point.mark
  alternative :=
    match point.alternative with
    | .clauses call untried depth next =>
      .clauses call (clausesFor call.indicator untried) depth (next.map (Frame.moved move))
    | .goal goal barrier depth next =>
      .goal goal (move barrier) depth (next.map (Frame.moved move))

/-- The choice points, the newest of them first, from which something can come. -/
def pruneAll : List ChoicePoint → List ChoicePoint
  | [] => []
  | point :: points =>
    if point.isLive then point.pruned (liveBelow points) :: pruneAll points else pruneAll points

variable {point : ChoicePoint} {points : List ChoicePoint} {height : Nat}

/-- Below the height of all choice points are all those from which something can come. -/
theorem liveBelow_length (points : List ChoicePoint) :
    liveBelow points points.length = points.countP isLive := by
  rw [liveBelow, Nat.sub_self, List.drop_zero]

/-- No more choice points are live below a height than in all. -/
theorem liveBelow_le (points : List ChoicePoint) (height : Nat) :
    liveBelow points height ≤ points.countP isLive :=
  (List.drop_sublist _ points).countP_le

/-- A newer choice point does not count below the heights there were. -/
theorem liveBelow_cons (h : height ≤ points.length) :
    liveBelow (point :: points) height = liveBelow points height := by
  rw [liveBelow, liveBelow, List.length_cons, Nat.sub_add_comm h, List.drop_succ_cons]

/-- Dropping the newest choice points does not change what is below the rest. -/
theorem liveBelow_drop {b : Nat} (h : height ≤ b) (hb : b ≤ points.length) :
    liveBelow (points.drop (points.length - b)) height = liveBelow points height := by
  rw [liveBelow, liveBelow, List.length_drop, List.drop_drop]
  congr 2
  omega

/-- As many choice points remain as there are live ones. -/
theorem length_pruneAll (points : List ChoicePoint) :
    (pruneAll points).length = points.countP isLive := by
  induction points with
  | nil => rfl
  | cons point points ih =>
    rw [pruneAll]
    split
    · next hlive => rw [List.length_cons, ih, List.countP_cons_of_pos hlive]
    · next hidle => rw [ih, List.countP_cons_of_neg hidle]

/-- Cutting and pruning commute. -/
theorem pruneAll_drop (points : List ChoicePoint) (height : Nat) :
    pruneAll (points.drop (points.length - height)) =
      (pruneAll points).drop ((pruneAll points).length - liveBelow points height) := by
  induction points with
  | nil => simp [pruneAll]
  | cons point points ih =>
    rcases Nat.lt_or_ge points.length height with hlt | hle
    · have hall : (point :: points).length - height = 0 := by
        rw [List.length_cons]
        omega
      rw [liveBelow, hall, List.drop_zero, length_pruneAll, Nat.sub_self, List.drop_zero]
    · rw [liveBelow_cons hle, List.length_cons, Nat.sub_add_comm hle, List.drop_succ_cons, ih,
        pruneAll]
      split
      · rw [List.length_cons, Nat.sub_add_comm, List.drop_succ_cons]
        rw [length_pruneAll]
        exact liveBelow_le points height
      · rfl

end ChoicePoint

namespace Search

/-- The choice points stand in the stack with the newest last. -/
theorem choices_eq (state : Search) : state.choices = state.points.reverse.toArray := by
  simp [points]

/-- The height that a height has when choice points are dropped from which nothing can come. -/
def liveHeight (state : Search) : Nat → Nat := ChoicePoint.liveBelow state.points

/-- The search without choice points from which nothing can come, and without clauses for other
predicates at the others. -/
def pruned (state : Search) : Search where
  store := state.store
  context := state.context
  continuation := state.continuation.map (Frame.moved state.liveHeight)
  choices := (ChoicePoint.pruneAll state.points).reverse.toArray
  inferences := state.inferences

end Search

/-- What a step leads to, pruned. -/
def Move.pruned : Move → Move
  | .proceed state => .proceed state.pruned
  | .backtrack state => .backtrack state.pruned
  | .solution state => .solution state.pruned
  | .error cause => .error cause
  | .unfinished => .unfinished

/-- What a look for a matching clause leads to, pruned. -/
def Entry.pruned : Entry → Entry
  | .entered state => .entered state.pruned
  | .missed state => .missed state.pruned
  | .unfinished => .unfinished

section Steps

variable {config : Config} {clausesOf : String → List Clause} {steps : Nat}

namespace Search

variable {state : Search} {call : Call} {barrier depth : Nat} {next : List Frame}

/-- The choice points of a pruned search are the live ones. -/
@[simp] theorem points_pruned (state : Search) :
    state.pruned.points = ChoicePoint.pruneAll state.points := by
  simp [points, pruned]

/-- The height of the pruned stack. -/
@[simp] theorem size_pruned (state : Search) :
    state.pruned.choices.size = state.liveHeight state.choices.size := by
  rw [← length_points, points_pruned, ChoicePoint.length_pruneAll, liveHeight, ← length_points,
    ChoicePoint.liveBelow_length]

/-- Searches with the same choice points in the stack are the same if all else is. -/
theorem eq_of_points {s t : Search} (hstore : s.store = t.store) (hcontext : s.context = t.context)
    (hcontinuation : s.continuation = t.continuation) (hpoints : s.points = t.points)
    (hinferences : s.inferences = t.inferences) : s = t := by
  have hchoices : s.choices = t.choices := by rw [choices_eq, choices_eq, hpoints]
  obtain ⟨σ, c, continuation, choices, inferences⟩ := s
  obtain ⟨σ', c', continuation', choices', inferences'⟩ := t
  simp_all

/-- A pruned search goes on with the frames at the heights that count live choice points only. -/
theorem pruned_continueWith (frames : List Frame) (state : Search) :
    (state.continueWith frames).pruned =
      state.pruned.continueWith (frames.map (Frame.moved state.liveHeight)) := rfl

/-- Cutting a pruned search is pruning what the cut leaves. -/
theorem pruned_cut (state : Search) {height : Nat} (hheight : height ≤ state.choices.size)
    (hnext : Frame.Descending height state.continuation) :
    (state.cut height).pruned = state.pruned.cut (state.liveHeight height) := by
  rw [← length_points] at hheight
  refine eq_of_points rfl rfl ?continuation ?points rfl
  case continuation =>
    refine Frame.map_moved_congr hnext fun b hb => ?_
    rw [liveHeight, points_cut]
    exact ChoicePoint.liveBelow_drop hb hheight
  case points =>
    rw [points_pruned, points_cut, points_cut, points_pruned]
    exact ChoicePoint.pruneAll_drop state.points height

/-- A new choice point leaves the heights there were. -/
theorem liveHeight_push {point : ChoicePoint} {height : Nat} (h : height ≤ state.choices.size) :
    liveHeight { state with choices := state.choices.push point } height =
      state.liveHeight height := by
  rw [← length_points] at h
  rw [liveHeight, points_push, ChoicePoint.liveBelow_cons h, liveHeight]

/-- A new choice point is kept if something can come from it, and dropped if not. -/
theorem pruned_push (state : Search) (point : ChoicePoint)
    (hnext : Frame.Descending state.choices.size state.continuation) :
    pruned { state with choices := state.choices.push point } =
      if point.isLive then
        { state.pruned with choices := state.pruned.choices.push (point.pruned state.liveHeight) }
      else state.pruned := by
  have hcontinuation : (pruned { state with choices := state.choices.push point }).continuation =
      state.pruned.continuation := Frame.map_moved_congr hnext fun b hb => liveHeight_push hb
  split
  · next hlive =>
    refine eq_of_points rfl rfl hcontinuation ?_ rfl
    rw [points_pruned, points_push, points_push, points_pruned, ChoicePoint.pruneAll, if_pos hlive,
      liveHeight]
  · next hidle =>
    refine eq_of_points rfl rfl hcontinuation ?_ rfl
    rw [points_pruned, points_push, points_pruned, ChoicePoint.pruneAll, if_neg hidle]

/-- Entering a clause of a pruned search is pruning the search that entered it. -/
theorem pruned_enter {clauses : List Clause} (hnext : Frame.Descending state.choices.size next) :
    enter config steps call (clausesFor call.indicator clauses) depth
        (next.map (Frame.moved state.liveHeight)) state.pruned =
      (enter config steps call clauses depth next state).pruned := by
  have hsize := state.size_pruned
  obtain ⟨σ, c, continuation, choices, inferences⟩ := state
  rw [enter, enter, pruned]
  dsimp only at hnext hsize ⊢
  rw [firstMatch_clausesFor (Config.reclaim_size σ)]
  cases firstMatch config steps c σ.size call σ clauses with
  | missing τ => rfl
  | unfinished => rfl
  | found τ d body isFact untried =>
    let frames := if isFact then next else .goal body choices.size (depth + 1) :: next
    have hframes : Frame.Descending choices.size frames := by
      cases isFact with
      | true => exact hnext
      | false => exact ⟨le_refl _, hnext⟩
    let entered : Search := ⟨τ, d, frames, choices, inferences⟩
    have hmoved : entered.pruned.continuation = if isFact then
        next.map (Frame.moved entered.liveHeight)
        else .goal body entered.pruned.choices.size (depth + 1) ::
          next.map (Frame.moved entered.liveHeight) := by
      rw [size_pruned]
      cases isFact <;> rfl
    have hpush := pruned_push entered ⟨c, σ.size, .clauses call untried depth next⟩ hframes
    have hpruned : entered.pruned = ⟨τ, d, if isFact then next.map (Frame.moved entered.liveHeight)
        else .goal body entered.pruned.choices.size (depth + 1) ::
          next.map (Frame.moved entered.liveHeight), entered.pruned.choices, inferences⟩ :=
      eq_of_points rfl rfl hmoved rfl rfl
    simp only [ClauseMatch.pruned, Entry.pruned]
    congr 1
    by_cases hnone : untried.isEmpty = true
    · have hnone' : (clausesFor call.indicator untried).isEmpty = true := by
        rw [List.isEmpty_iff.1 hnone]
        rfl
      rw [if_pos hnone, if_pos hnone']
      exact hpruned.symm
    · rw [if_neg hnone]
      refine Eq.trans ?_ hpush.symm
      simp only [ChoicePoint.isLive, Bool.not_eq_true', ← Bool.not_eq_true, ite_not]
      by_cases hidle : (clausesFor call.indicator untried).isEmpty = true
      · rw [if_pos hidle, if_pos hidle]
        exact hpruned.symm
      · rw [if_neg hidle, if_neg hidle, hpruned]
        rfl

/-- Calling a predicate with the clauses for it only is calling it. -/
theorem pruned_resolve (hnext : Frame.Descending state.choices.size state.continuation) :
    resolve config (fun key => clausesFor key (clausesOf key)) steps call depth state.pruned =
      (resolve config clausesOf steps call depth state).pruned := by
  rw [resolve, resolve]
  split
  · rfl
  · have hinferences : state.pruned.inferences = state.inferences := rfl
    rw [hinferences]
    dsimp only
    cases config.maxInferences.filter (· < state.inferences + 1) with
    | some limit => rfl
    | none =>
      let counted : Search := { state with inferences := state.inferences + 1 }
      have henter : enter config steps call (clausesFor call.indicator (clausesOf call.indicator))
          depth (state.continuation.map (Frame.moved counted.liveHeight)) counted.pruned =
            (enter config steps call (clausesOf call.indicator) depth state.continuation
              counted).pruned := pruned_enter hnext
      dsimp only
      change (match enter config steps call _ depth (state.continuation.map
        (Frame.moved counted.liveHeight)) counted.pruned with
        | .entered state => Move.proceed state
        | .missed state => .backtrack state
        | .unfinished => .unfinished) = _
      rw [henter]
      cases enter config steps call (clausesOf call.indicator) depth state.continuation
        counted <;> rfl

/-- Leaving a goal for later in a pruned search is pruning the search that left it. -/
theorem pruned_offer (goal : Occurrence) (barrier depth : Nat)
    (hnext : Frame.Descending state.choices.size state.continuation) :
    (state.offer goal barrier depth).pruned =
      state.pruned.offer goal (state.liveHeight barrier) depth :=
  pruned_push state ⟨state.context, state.store.size, .goal goal barrier depth state.continuation⟩
    hnext

/-- Where a goal was left for later, the heights there were are the same. -/
theorem map_moved_offer {goal : Occurrence} {frames : List Frame}
    (hframes : Frame.Descending state.choices.size frames) :
    frames.map (Frame.moved (state.offer goal barrier depth).liveHeight) =
      frames.map (Frame.moved state.liveHeight) :=
  Frame.map_moved_congr hframes fun _ hb => liveHeight_push hb

/-- The height above the goal that was left for later is that of the pruned search. -/
theorem liveHeight_size_offer (goal : Occurrence) (barrier depth : Nat)
    (hnext : Frame.Descending state.choices.size state.continuation) :
    (state.offer goal barrier depth).liveHeight (state.offer goal barrier depth).choices.size =
      (state.pruned.offer goal (state.liveHeight barrier) depth).choices.size := by
  rw [← size_pruned, pruned_offer goal barrier depth hnext]

/-- Doing what a goal asks for in a pruned search is pruning what it leads to. -/
theorem pruned_perform {goal : Goal} (hbarrier : barrier ≤ state.choices.size)
    (hnext : Frame.Descending barrier state.continuation) :
    perform config (fun key => clausesFor key (clausesOf key)) steps goal
        (state.liveHeight barrier) depth state.pruned =
      (perform config clausesOf steps goal barrier depth state).pruned := by
  have hwithin := hnext.mono hbarrier
  have hsize := state.size_pruned
  cases goal with
  | truth | failure | both => rfl
  | cut => exact congrArg Move.proceed (pruned_cut state hbarrier hnext).symm
  | either left right =>
    have hframes : Frame.Descending state.choices.size
        (.goal left barrier depth :: state.continuation) := ⟨hbarrier, hnext⟩
    simp only [perform, Move.pruned, pruned_continueWith, pruned_offer _ _ _ hwithin,
      map_moved_offer hframes]
    rfl
  | ifThen condition consequent alternative =>
    cases alternative with
    | none =>
      simp only [perform, Move.pruned, pruned_continueWith, hsize]
      rfl
    | some goal =>
      have hframes : Frame.Descending state.choices.size
          (.cutTo state.choices.size :: .goal consequent barrier depth :: state.continuation) :=
        ⟨le_refl _, hbarrier, hnext⟩
      simp only [perform, Move.pruned, pruned_continueWith]
      rw [List.map_cons, map_moved_offer hframes, Frame.moved,
        liveHeight_size_offer goal barrier depth hwithin, pruned_offer _ _ _ hwithin, hsize]
      rfl
  | negation goal =>
    have hframes : Frame.Descending state.choices.size
        [.cutTo state.choices.size, .call ⟨"fail", []⟩ barrier depth] :=
      ⟨le_refl _, hbarrier, trivial⟩
    simp only [perform, Move.pruned, pruned_continueWith]
    rw [List.map_cons, map_moved_offer hframes, Frame.moved,
      liveHeight_size_offer _ barrier depth hwithin, pruned_offer _ _ _ hwithin, hsize]
    rfl
  | call target extra =>
    have hderef : state.pruned.store.deref state.pruned.context target =
        state.store.deref state.context target := rfl
    simp only [perform, hderef]
    cases Call.ofOccurrence (state.store.deref state.context target) with
    | error cause => rfl
    | ok callee =>
      simp only [Move.pruned, pruned_continueWith, hsize]
      rfl
  | unify left right | differ left right =>
    obtain ⟨σ, c, continuation, choices, inferences⟩ := state
    simp only [perform, pruned]
    cases ClauseResolution.unify .byOccurrence config.occursCheck steps σ c left right <;> rfl
  | predicate callee => exact pruned_resolve hwithin

/-- Doing what a call asks for can be pruned before or after. -/
theorem pruned_performCall (state : Search) (hbarrier : barrier ≤ state.choices.size)
    (hnext : Frame.Descending barrier state.continuation) :
    performCall config (fun key => clausesFor key (clausesOf key)) steps call
        (state.liveHeight barrier) depth state.pruned =
      (performCall config clausesOf steps call barrier depth state).pruned := by
  rw [performCall, performCall]
  cases Goal.ofCall call with
  | error cause => rfl
  | ok goal => exact pruned_perform hbarrier hnext

/-- A step of a pruned search is pruning what the step leads to. -/
theorem pruned_advance (h : Frame.Descending state.choices.size state.continuation) :
    state.pruned.advance config (fun key => clausesFor key (clausesOf key)) steps =
      (state.advance config clausesOf steps).pruned := by
  obtain ⟨σ, c, continuation, choices, inferences⟩ := state
  match continuation with
  | [] => rfl
  | .cutTo height :: next =>
    exact congrArg Move.proceed (pruned_cut ⟨σ, c, next, choices, inferences⟩ h.1 h.2).symm
  | .call call barrier depth :: next =>
    exact pruned_performCall ⟨σ, c, next, choices, inferences⟩ h.1 h.2
  | .goal goal barrier depth :: next =>
    simp only [pruned, List.map_cons, Frame.moved, advance]
    cases Call.ofOccurrence (σ.deref c goal) with
    | error cause => rfl
    | ok call => exact pruned_performCall ⟨σ, c, next, choices, inferences⟩ h.1 h.2

/-- From clauses for other predicates nothing can come. -/
theorem enter_of_clausesFor_eq_nil {clauses : List Clause}
    (h : clausesFor call.indicator clauses = []) :
    enter config steps call clauses depth next state = .missed state := by
  obtain ⟨σ, c, continuation, choices, inferences⟩ := state
  have hmatch : (firstMatch config steps c σ.size call σ clauses).pruned call.indicator =
      .missing σ := by
    rw [← firstMatch_clausesFor (Config.reclaim_size σ), h]
    rfl
  rw [enter]
  cases hfirst : firstMatch config steps c σ.size call σ clauses with
  | missing τ =>
    rw [hfirst] at hmatch
    cases hmatch
    rfl
  | found | unfinished =>
    rw [hfirst] at hmatch
    cases hmatch

/-- The goals that remain are replaced when a clause is entered, and kept when none is. -/
theorem enter_continueWith (clauses : List Clause) (frames : List Frame) (state : Search) :
    enter config steps call clauses depth next (state.continueWith frames) =
      match enter config steps call clauses depth next state with
      | .missed state' => .missed (state'.continueWith frames)
      | entry => entry := by
  obtain ⟨σ, c, continuation, choices, inferences⟩ := state
  rw [enter, continueWith, enter]
  dsimp only
  cases firstMatch config steps c σ.size call σ clauses <;> rfl

/-- Going back in both searches leads to the same, pruned in one. Where no choice point is left,
the stores may differ. -/
inductive Resumption.Prunes : Resumption → Resumption → Prop
  | resumed (state : Search) : Prunes (.resumed state) (.resumed state.pruned)
  | exhausted {state state' : Search} : state.inferences = state'.inferences →
      Prunes (.exhausted state) (.exhausted state')
  | unfinished : Prunes .unfinished .unfinished

section Back

variable {τ : Store} {c d : Context} {mark : Nat} {frames : List Frame} {untried : List Clause}

/-- The newest choice point is kept if something can come from it. -/
theorem choices_pruned_of_back? {point : ChoicePoint} (hlast : state.choices.back? = some point) :
    state.pruned.choices =
      if point.isLive then
        (pruned { state with choices := state.choices.pop }).choices.push
          (point.pruned (liveHeight { state with choices := state.choices.pop }))
      else (pruned { state with choices := state.choices.pop }).choices := by
  have hpoints := points_of_back? hlast
  rw [pruned]
  dsimp only
  rw [hpoints, ChoicePoint.pruneAll]
  split
  · simp [pruned, points, liveHeight]
  · rfl

/-- Taking up the newest choice point of a pruned search, when a goal is left there. -/
theorem pruned_backtrack_goal {goal : Occurrence} (hlast : state.choices.back? =
      some ⟨c, mark, .goal goal barrier depth next⟩)
    (hτ : config.reclaim mark τ = config.reclaim mark state.store) :
    backtrack config steps ⟨τ, d, frames, state.pruned.choices, state.inferences⟩ =
      .resumed (pruned ⟨config.reclaim mark state.store, c, .goal goal barrier depth :: next,
        state.choices.pop, state.inferences⟩) := by
  have hlive : ChoicePoint.isLive ⟨c, mark, .goal goal barrier depth next⟩ = true := rfl
  rw [choices_pruned_of_back? hlast, if_pos hlive, backtrack_eq, Array.back?_push]
  dsimp only [ChoicePoint.pruned]
  rw [hτ, Array.pop_push]
  rfl

/-- Taking up the newest choice point of a pruned search, when clauses for the predicate are left
there. -/
theorem pruned_backtrack_clauses (hlast : state.choices.back? =
      some ⟨c, mark, .clauses call untried depth next⟩)
    (hlive : clausesFor call.indicator untried ≠ [])
    (hnext : Frame.Descending state.choices.pop.size next)
    (hτ : config.reclaim mark τ = config.reclaim mark state.store) :
    backtrack config steps ⟨τ, d, frames, state.pruned.choices, state.inferences⟩ =
      match enter config steps call untried depth next ⟨config.reclaim mark state.store, c,
        state.continuation, state.choices.pop, state.inferences⟩ with
      | .entered state' => .resumed state'.pruned
      | .missed state' => (state'.pruned.continueWith frames).backtrack config steps
      | .unfinished => .unfinished := by
  let popped : Search := ⟨config.reclaim mark state.store, c, state.continuation,
    state.choices.pop, state.inferences⟩
  have hchoices : state.pruned.choices = popped.pruned.choices.push
      ⟨c, mark, .clauses call (clausesFor call.indicator untried) depth
        (next.map (Frame.moved popped.liveHeight))⟩ := by
    rw [choices_pruned_of_back? hlast, if_pos (by simpa [ChoicePoint.isLive] using hlive)]
    rfl
  have henter : enter config steps call (clausesFor call.indicator untried) depth
      (next.map (Frame.moved popped.liveHeight)) popped.pruned =
        (enter config steps call untried depth next popped).pruned := pruned_enter hnext
  rw [backtrack_eq, hchoices, Array.back?_push]
  dsimp only
  rw [hτ, Array.pop_push]
  change (match enter config steps call _ depth _ (popped.pruned.continueWith frames) with
    | .entered state => Resumption.resumed state
    | .missed state => state.backtrack config steps
    | .unfinished => .unfinished) = _
  rw [enter_continueWith, henter]
  cases enter config steps call untried depth next popped <;> rfl

/-- Going back in a pruned search is pruning what going back leads to. The pruned search has not
reclaimed what was bound before a choice point from which nothing could come. -/
theorem pruned_backtrack (h : state.Sound) (hnested : Branch.AllNested state.view.branches)
    (hτ : ∀ point ∈ state.points,
      config.reclaim point.mark τ = config.reclaim point.mark state.store) :
    Resumption.Prunes (state.backtrack config steps)
      (backtrack config steps ⟨τ, d, frames, state.pruned.choices, state.inferences⟩) := by
  induction hsize : state.choices.size using Nat.strong_induction_on generalizing state τ d with
  | _ count ih =>
    cases hlast : state.choices.back? with
    | none =>
      have hempty : state.choices = #[] := Array.back?_eq_none_iff.1 hlast
      rw [backtrack_eq, backtrack_eq, pruned, points, hempty]
      exact .exhausted rfl
    | some point =>
      obtain ⟨hsound, branches, hbranches, hview⟩ := h.reclaim config hlast state.continuation
      obtain ⟨hmark, hstamp, hsettles, hrest⟩ := points_of_back? hlast ▸ h.supports
      rw [hbranches] at hnested
      rw [points_of_back? hlast, List.forall_mem_cons] at hτ
      have hpop : state.choices.pop.size < count := by
        rw [Array.size_pop]
        have hpos : state.choices ≠ #[] := by
          rintro hempty
          simp [hempty] at hlast
        have := Array.size_pos_iff.2 hpos
        omega
      obtain ⟨c, mark, ⟨call, untried, depth, next⟩ | ⟨goal, barrier, depth, next⟩⟩ := point
      · let popped : Search := ⟨config.reclaim mark state.store, c, state.continuation,
          state.choices.pop, state.inferences⟩
        have hlength : branches.length = state.choices.pop.size := by
          rw [← length_branches_view popped]
          exact congrArg (List.length ∘ Exploration.branches) hview.symm
        obtain ⟨hnext, hbranchesNested⟩ := hnested
        have hpopped : Branch.AllNested popped.view.branches := by
          rw [hview]
          exact hbranchesNested
        rw [backtrack_eq config steps state, hlast]
        dsimp only
        by_cases hidle : clausesFor call.indicator untried = []
        · -- Only the search itself comes by here, and it reclaims what is reclaimed below anyway.
          rw [enter_of_clausesFor_eq_nil hidle, choices_pruned_of_back? hlast,
            if_neg (by simp [ChoicePoint.isLive, hidle])]
          refine ih _ hpop hsound hpopped (fun older holder => ?_) rfl
          rw [hτ.2 older holder, Config.reclaim_reclaim (hrest.mark_le holder)]
        · rw [pruned_backtrack_clauses hlast hidle (hlength ▸ hnext) hτ.1]
          obtain ⟨hsound', hview'⟩ := enter_view config steps hsound call untried depth next
          dsimp only at hsound' hview' ⊢
          cases henter : enter config steps call untried depth next popped with
          | entered entered => exact .resumed entered
          | unfinished => exact .unfinished
          | missed missed =>
            rw [henter] at hsound' hview'
            have hsame := Exploration.eq_of_enter_eq_backtrack hview'.symm
            have hchoices := choices_of_enter_eq_missed henter
            refine ih _ hpop hsound' ?_ (fun _ _ => rfl) (by rw [hchoices])
            rw [hsame]
            exact hpopped
      · rw [backtrack_eq config steps state, hlast, pruned_backtrack_goal hlast hτ.1]
        exact .resumed _

end Back

end Search

end Steps

end ClauseResolution
