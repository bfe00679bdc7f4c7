import ClauseResolution.Proofs.Engine.Freshness
import ClauseResolution.Proofs.Search.Events
import ClauseResolution.Proofs.Search.Names
import ClauseResolution.Proofs.Term.Stored

/-!
# Names do not influence a search

Two searches for the same goal under different names, among the same clauses under
different names, are in the same state up to names after every turn. So they call the same
predicates, find the same solutions and end alike, as long as whoever receives the solutions
does not look at the names either. The names can be read in the values of a solution only.
-/

namespace ClauseResolution

/-- Two terms are the same apart from the names of variables. -/
structure Term.EqUpToNames (t u : Term) : Prop where
  /-- They are equal without names. -/
  unnamed : u.unnamed = t.unnamed
  /-- They are equal wherever they are stored, unless some number in them is not a number. -/
  equal : t.isNaNFree → ∀ (layout : Layout) (o o' : Occurrence), o.term = t → o'.term = u →
    layout.equal o o' = true

/-- Terms that are equal without names are the same apart from names. -/
theorem Term.eqUpToNames_of_unnamed_eq {t u : Term} (h : u.unnamed = t.unnamed) :
    t.EqUpToNames u := by
  refine ⟨h, fun hfree layout o o' ho ho' => ?_⟩
  subst ho ho'
  rw [layout.equal_eq_same hfree]
  exact same_of_unnamed_eq h.symm hfree

/-- Two solutions are the same apart from the names of variables. -/
structure Solution.Renamed (s s' : Solution) : Prop where
  /-- They have the same stamp and the same top. -/
  context : s'.context = s.context
  /-- Each slot is bound to the same term, or not bound in either. -/
  lookup : ∀ slot, Option.Rel Term.EqUpToNames (s.store.lookup s.context slot)
    (s'.store.lookup s'.context slot)

/-- Two events are the same apart from the names of variables. -/
def Event.Renamed : Event → Event → Prop
  | .call callee depth, .call callee' depth' => callee'.unnamed = callee.unnamed ∧ depth' = depth
  | .solution s, .solution s' => s.Renamed s'
  | _, _ => False

/-- Two environments have the same clauses apart from the names of variables. -/
structure Environment.Renamed (index : ClauseIndex) (env env' : Environment) : Prop where
  /-- Both searches are asked to stop, or neither is. -/
  interrupted : env'.interrupted = env.interrupted
  /-- The clauses of each predicate have other names, one by one. -/
  clauses : ∀ key, List.Forall₂ Clause.Renamed (index.matching env.providers key)
    (index.matching env'.providers key)

/-- Two listeners do the same at the same solutions, whatever the names are. -/
structure Listener.IgnoresNames {α β : Type} (index : ClauseIndex) (R : α → β → Prop)
    (l : Listener α) (l' : Listener β) : Prop where
  /-- Both go on, or both end the search. -/
  signal : ∀ s s' env env' v w, s.Renamed s' → env.Renamed index env' → R v w →
    (l' s' env' w).1 = (l s env v).1
  /-- They leave the same clauses, apart from the names. -/
  environment : ∀ s s' env env' v w, s.Renamed s' → env.Renamed index env' → R v w →
    (l s env v).2.1.Renamed index (l' s' env' w).2.1
  /-- Their own values stay related. -/
  value : ∀ s s' env env' v w, s.Renamed s' → env.Renamed index env' → R v w →
    R (l s env v).2.2 (l' s' env' w).2.2

/-- An engine has the configuration of another one, and the same clauses under other
names. -/
structure Engine.Renamed (engine engine' : Engine) : Prop where
  /-- The configurations are the same. -/
  config : engine'.config = engine.config
  /-- The providers serve the same predicates. -/
  index : engine'.index = engine.index
  /-- The clauses of each predicate have other names, one by one. -/
  clauses : ∀ key, List.Forall₂ Clause.Renamed (engine.clauses key) (engine'.clauses key)

/-- The events of the search for a goal. -/
def Engine.events {α : Type} (engine : Engine) (steps : Nat) (goal : Term)
    (listener : Listener α) (value : α) : List Event :=
  Search.events engine.config engine.index goal.normalize.vars listener steps
    (engine.begin goal value)

namespace Environment.Renamed

variable {index : ClauseIndex} {env env' : Environment}

/-- Without names the clauses are the same. -/
theorem unnamed (h : env.Renamed index env') :
    (fun key => (index.matching env'.providers key).map Clause.unnamed) =
      fun key => (index.matching env.providers key).map Clause.unnamed := by
  funext key
  have hequal : List.Forall₂ Eq ((index.matching env'.providers key).map Clause.unnamed)
      ((index.matching env.providers key).map Clause.unnamed) := by
    rw [List.forall₂_map_left_iff, List.forall₂_map_right_iff]
    exact (h.clauses key).flip.imp fun _ _ hrenamed =>
      Clause.Renamed.unnamed_eq hrenamed
  rwa [List.forall₂_eq_eq_eq] at hequal

/-- All clauses were made from terms. -/
theorem placed (h : env.Renamed index env') (key : String) :
    (∀ clause ∈ index.matching env.providers key, clause.Placed) ∧
      ∀ clause ∈ index.matching env'.providers key, clause.Placed := by
  have hall := h.clauses key
  revert hall
  generalize index.matching env.providers key = clauses
  generalize index.matching env'.providers key = clauses'
  intro hall
  induction hall with
  | nil => exact ⟨List.forall_mem_nil _, List.forall_mem_nil _⟩
  | cons hrenamed _ ih =>
    obtain ⟨hbuilt, hbuilt'⟩ := hrenamed.isBuilt
    exact ⟨List.forall_mem_cons.2 ⟨hbuilt.placed, ih.1⟩,
      List.forall_mem_cons.2 ⟨hbuilt'.placed, ih.2⟩⟩

end Environment.Renamed

/-- The names of the slots are known, on the present branch and on those that are left. -/
structure Search.HasNames (config : Config) (state : Search) : Prop where
  /-- The search is sound. -/
  sound : state.Sound
  /-- There is one name for each slot. -/
  named : (naming config).OfExploration state.view

/-- Two searches are in the same state, apart from the names of variables. -/
structure Search.Renamed (config : Config) (s s' : Search) : Prop where
  /-- The names of the slots are known in the first. -/
  left : s.HasNames config
  /-- They are known in the second. -/
  right : s'.HasNames config
  /-- Without names the states are the same. -/
  unnamed : s'.unnamed = s.unnamed

/-- What a step leads to has names for its slots. -/
def Move.HasNames (config : Config) : Move → Prop
  | .proceed s | .backtrack s | .solution s => s.HasNames config
  | .error _ | .unfinished => True

/-- Two steps lead to the same, apart from the names of variables. -/
structure Move.Renamed (config : Config) (move move' : Move) : Prop where
  /-- The names of the slots are known after the first. -/
  left : move.HasNames config
  /-- They are known after the second. -/
  right : move'.HasNames config
  /-- Without names both lead to the same. -/
  unnamed : move'.unnamed = move.unnamed

namespace Search

variable {config : Config} {clausesOf clausesOf' : String → List Clause} {s s' : Search}
  {steps : Nat}

/-- A step keeps the names of the slots, and gives names to the new ones. -/
theorem HasNames.advance (h : s.HasNames config)
    (hclauses : ∀ key, ∀ clause ∈ clausesOf key, clause.Placed) (steps : Nat) :
    (s.advance config clausesOf steps).HasNames config := by
  obtain ⟨hsound, hview⟩ := advance_view config clausesOf steps h.sound
  have hstage : (naming config).OfStage (s.view.advance config clausesOf steps) :=
    BranchInvariant.ofStage_advance hclauses h.named
  rw [← hview] at hstage
  cases hmove : s.advance config clausesOf steps <;> rw [hmove] at hsound hstage
  case error | unfinished => trivial
  all_goals exact ⟨hsound, hstage⟩

/-- Going back keeps the names of the slots. -/
theorem HasNames.backtrack (h : s.HasNames config) {resumed : Search}
    (hresumed : s.backtrack config steps = .resumed resumed) : resumed.HasNames config := by
  obtain ⟨hsound, hview⟩ := backtrack_view config steps h.sound
  rw [hresumed] at hsound hview
  exact ⟨hsound, BranchInvariant.of_backtrack h.named.branches hview.symm⟩

/-- A step from the same state, among the same clauses, leads to the same, apart from the
names of variables. -/
theorem Renamed.advance (h : s.Renamed config s')
    (hclauses : ∀ key, ∀ clause ∈ clausesOf key, clause.Placed)
    (hclauses' : ∀ key, ∀ clause ∈ clausesOf' key, clause.Placed)
    (hsame : (fun key => (clausesOf' key).map Clause.unnamed) =
      fun key => (clausesOf key).map Clause.unnamed) (steps : Nat) :
    (s.advance config clausesOf steps).Renamed config (s'.advance config clausesOf' steps) := by
  refine ⟨h.left.advance hclauses steps, h.right.advance hclauses' steps, ?_⟩
  rw [← advance_unnamed config clausesOf steps hclauses h.left.sound h.left.named,
    ← advance_unnamed config clausesOf' steps hclauses' h.right.sound h.right.named, h.unnamed,
    hsame]

/-- Going back from the same state leads to the same, apart from the names. -/
theorem Renamed.backtrack (h : s.Renamed config s') (steps : Nat) :
    (s'.backtrack config steps).unnamed = (s.backtrack config steps).unnamed := by
  rw [← backtrack_unnamed config steps h.left.sound h.left.named.branches,
    ← backtrack_unnamed config steps h.right.sound h.right.named.branches, h.unnamed]

end Search

section Turns

variable {α β : Type} {config : Config} {index : ClauseIndex} {vars vars' : List Var} {steps : Nat}
  {s s' : Search} {R : α → β → Prop} {l : Listener α} {l' : Listener β} {p : Progress α}
  {q : Progress β}

/-- Two searches under way are in the same state, apart from the names of variables. -/
structure Progress.Renamed (config : Config) (index : ClauseIndex) (R : α → β → Prop)
    (p : Progress α) (q : Progress β) : Prop where
  /-- They found as many solutions. -/
  solutions : q.solutions = p.solutions
  /-- The states are the same. -/
  state : p.state.Renamed config q.state
  /-- So are the clauses. -/
  environment : p.environment.Renamed index q.environment
  /-- The values of the listeners are related. -/
  value : R p.value q.value

/-- Two reports tell of the same end, with related values. -/
structure Report.Renamed (R : α → β → Prop) (r : Report α) (r' : Report β) : Prop where
  /-- The ends are the same. -/
  ending : r'.ending = r.ending
  /-- The values of the listeners are related. -/
  value : R r.value r'.value

/-- Two turns lead to the same, apart from the names of variables. -/
def Turn.Renamed (config : Config) (index : ClauseIndex) (R : α → β → Prop) :
    Turn α → Turn β → Prop
  | .going p, .going q => p.Renamed config index R q
  | .ended r, .ended r' => r.Renamed R r'
  | _, _ => False

namespace Search

/-- The solutions in the same state are the same apart from the names. -/
theorem Renamed.solution (h : s.Renamed config s') (vars vars' : List Var) :
    (s.solution vars).Renamed (s'.solution vars') := by
  obtain ⟨hstore, hcontext, _⟩ := Search.mk.inj h.unnamed
  refine ⟨hcontext, fun slot => ?_⟩
  have hlookup : (s'.store.lookup s'.context slot).map Term.unnamed =
      (s.store.lookup s.context slot).map Term.unnamed := by
    rw [← Store.lookup_unnamed, ← Store.lookup_unnamed, hstore, hcontext]
  change Option.Rel _ (s.store.lookup s.context slot) (s'.store.lookup s'.context slot)
  cases hvalue : s.store.lookup s.context slot <;>
    cases hvalue' : s'.store.lookup s'.context slot <;> simp [hvalue, hvalue'] at hlookup
  · exact .none
  · exact .some (Term.eqUpToNames_of_unnamed_eq hlookup)

/-- Equal states have the same number of calls. -/
theorem inferences_eq_of_unnamed_eq (h : s'.unnamed = s.unnamed) :
    s'.inferences = s.inferences :=
  (congrArg Search.inferences h :)

/-- Going back keeps two searches in the same state, or ends both. -/
theorem retry_renamed (h : p.Renamed config index R q) :
    (retry config steps p).Renamed config index R (retry config steps q) := by
  obtain ⟨count, state, env, value⟩ := p
  obtain ⟨count', state', env', value'⟩ := q
  obtain ⟨rfl, hstate, henv, hvalue⟩ := h
  have hback := hstate.backtrack steps
  dsimp only at hback hstate hvalue henv
  rw [retry, retry]
  dsimp only
  cases hleft : state.backtrack config steps <;> cases hright : state'.backtrack config steps <;>
    simp [hleft, hright, Resumption.unnamed] at hback
  case resumed.resumed next next' =>
    exact ⟨rfl, ⟨hstate.left.backtrack hleft, hstate.right.backtrack hright, hback⟩, henv, hvalue⟩
  case exhausted.exhausted last last' =>
    refine ⟨?_, hvalue⟩
    dsimp only
    rw [inferences_eq_of_unnamed_eq hback]
  case unfinished.unfinished => exact ⟨rfl, hvalue⟩

/-- A turn keeps two searches in the same state, or ends both. -/
theorem turn_renamed (hl : l.IgnoresNames index R l') (h : p.Renamed config index R q) :
    (turn config index vars l steps p).Renamed config index R
      (turn config index vars' l' steps q) := by
  obtain ⟨count, state, env, value⟩ := p
  obtain ⟨count', state', env', value'⟩ := q
  obtain ⟨rfl, hstate, henv, hvalue⟩ := h
  dsimp only at hstate hvalue henv
  rw [turn, turn]
  dsimp only
  rw [henv.interrupted]
  split
  · exact ⟨rfl, hvalue⟩
  · have hmove := hstate.advance (fun key => (henv.placed key).1) (fun key => (henv.placed key).2)
      henv.unnamed steps
    obtain ⟨hleft, hright, hunnamed⟩ := hmove
    cases hmove : state.advance config (index.matching env.providers) steps <;>
      cases hmove' : state'.advance config (index.matching env'.providers) steps <;>
      simp [hmove, hmove', Move.unnamed] at hleft hright hunnamed
    case proceed.proceed next next' =>
      exact ⟨rfl, ⟨hleft, hright, hunnamed⟩, henv, hvalue⟩
    case backtrack.backtrack next next' =>
      exact retry_renamed ⟨rfl, ⟨hleft, hright, hunnamed⟩, henv, hvalue⟩
    case error.error cause cause' =>
      obtain rfl := hunnamed
      exact ⟨rfl, hvalue⟩
    case unfinished.unfinished => exact ⟨rfl, hvalue⟩
    case solution.solution next next' =>
      have hnext : next.Renamed config next' := ⟨hleft, hright, hunnamed⟩
      have hsolution := hnext.solution vars vars'
      have hsignal := hl.signal _ _ _ _ _ _ hsolution henv hvalue
      have henv' := hl.environment _ _ _ _ _ _ hsolution henv hvalue
      have hvalue' := hl.value _ _ _ _ _ _ hsolution henv hvalue
      dsimp only
      generalize l (next.solution vars) env value = reply at hsignal henv' hvalue' ⊢
      generalize l' (next'.solution vars') env' value' = reply' at hsignal henv' hvalue' ⊢
      obtain ⟨signal, after, kept⟩ := reply
      obtain ⟨signal', after', kept'⟩ := reply'
      obtain rfl := hsignal
      cases signal' with
      | abort =>
        refine ⟨?_, hvalue'⟩
        dsimp only
        rw [inferences_eq_of_unnamed_eq hunnamed]
      | «continue» => exact retry_renamed ⟨rfl, hnext, henv', hvalue'⟩

/-- The call that a frame makes does not depend on names. -/
theorem call?_unnamed (σ : Store) (c : Context) (frame : Frame) :
    frame.unnamed.call? σ.unnamed c = (frame.call? σ c).map (Prod.map Call.unnamed id) := by
  cases frame with
  | goal target barrier depth =>
    simp only [Frame.unnamed, Frame.call?, Store.deref_unnamed, Call.ofOccurrence_unnamed]
    cases Call.ofOccurrence (σ.deref c target) <;> rfl
  | call | cutTo => rfl

/-- Whether a call asks for a predicate does not depend on names. -/
theorem predicate?_unnamed (call : Call) :
    call.unnamed.predicate? = call.predicate?.map Call.unnamed := by
  rw [Call.predicate?, Call.predicate?, Goal.ofCall_unnamed]
  cases Goal.ofCall call with
  | error cause => rfl
  | ok goal => cases goal <;> rfl

/-- Which predicate is called next does not depend on names. -/
theorem predicateCall?_unnamed (s : Search) :
    s.unnamed.predicateCall? = s.predicateCall?.map (Prod.map Call.unnamed id) := by
  obtain ⟨σ, c, continuation, choices, inferences⟩ := s
  cases continuation with
  | nil => rfl
  | cons frame next =>
    simp only [predicateCall?, unnamed, List.map_cons, List.head?_cons, Option.bind_eq_bind,
      Option.bind_some, call?_unnamed]
    cases frame.call? σ c with
    | none => rfl
    | some callee =>
      obtain ⟨call, depth⟩ := callee
      simp only [Option.map_some, Option.bind_some, Prod.map, predicate?_unnamed]
      cases call.predicate? <;> rfl

/-- The events of a turn are the same apart from the names of variables. -/
theorem turnEvent?_renamed (h : p.Renamed config index R q) :
    Option.Rel Event.Renamed (turnEvent? vars p) (turnEvent? vars' q) := by
  have hinterrupted := h.environment.interrupted
  have hunnamed := h.state.unnamed
  have hempty : q.state.continuation.isEmpty = p.state.continuation.isEmpty := by
    have hframes : q.state.unnamed.continuation.isEmpty = p.state.unnamed.continuation.isEmpty := by
      rw [hunnamed]
    simpa [unnamed] using hframes
  have hcall : q.state.predicateCall?.map (Prod.map Call.unnamed id) =
      p.state.predicateCall?.map (Prod.map Call.unnamed id) := by
    rw [← predicateCall?_unnamed, ← predicateCall?_unnamed, hunnamed]
  rw [turnEvent?, turnEvent?, event?, event?, hinterrupted, hempty]
  split
  · exact .none
  · split
    · exact .some (h.state.solution vars vars')
    · cases hleft : p.state.predicateCall? <;> cases hright : q.state.predicateCall? <;>
        simp [hleft, hright] at hcall
      · exact .none
      · obtain ⟨hcallee, hdepth⟩ := Prod.mk.inj hcall
        exact .some ⟨hcallee, hdepth⟩

/-- A whole run has the same events and the same end, apart from the names of variables. -/
theorem run_renamed (hl : l.IgnoresNames index R l') (h : p.Renamed config index R q) :
    List.Forall₂ Event.Renamed (events config index vars l steps p)
        (events config index vars' l' steps q) ∧
      (run config index vars l steps p).Renamed R (run config index vars' l' steps q) := by
  induction steps generalizing p q with
  | zero => exact ⟨.nil, rfl, h.value⟩
  | succ steps ih =>
    have hnow : List.Forall₂ Event.Renamed (turnEvent? vars p).toList
        (turnEvent? vars' q).toList := by
      have hevent : Option.Rel Event.Renamed (turnEvent? vars p) (turnEvent? vars' q) :=
        turnEvent?_renamed h
      generalize turnEvent? vars p = event at hevent ⊢
      generalize turnEvent? vars' q = event' at hevent ⊢
      cases hevent with
      | none => exact .nil
      | some hrenamed => exact .cons hrenamed .nil
    have hturn : (turn config index vars l steps p).Renamed config index R
        (turn config index vars' l' steps q) := turn_renamed hl h
    rw [events, events, run, run]
    generalize turn config index vars l steps p = next at hturn ⊢
    generalize turn config index vars' l' steps q = next' at hturn ⊢
    cases next with
    | going p' =>
      cases next' with
      | going q' =>
        obtain ⟨hlater, hreport⟩ := ih hturn
        exact ⟨List.rel_append hnow hlater, hreport⟩
      | ended r' => exact hturn.elim
    | ended r =>
      cases next' with
      | going q' => exact hturn.elim
      | ended r' => exact ⟨List.rel_append hnow .nil, hturn⟩

/-- The searches start in the same state. -/
theorem start_renamed (config : Config) {f : String → String} {goal : Term}
    (hf : Renames f goal.names) :
    (start goal.normalize).Renamed config (start (goal.renamed f).normalize) := by
  obtain ⟨hterm, hlength⟩ := Term.normalize_renamed hf
  have hnames : ∀ goal : Term, (start goal.normalize).HasNames config := fun goal => by
    refine ⟨sound_start _, ?_⟩
    rw [view_start]
    refine ⟨⟨goal.normalize.vars.map Var.name, ⟨List.length_map _, ?_⟩, ?_⟩, ?_⟩
    · simp [Exploration.start]
    · simpa [Exploration.start, Frame.terms, naming, Occurrence.whole] using goal.named_normalize
    · simp [Exploration.start]
  refine ⟨hnames goal, hnames (goal.renamed f), ?_⟩
  simp [start, unnamed, Frame.unnamed, Occurrence.unnamed, Occurrence.whole, hterm, hlength]

end Search

end Turns

namespace Engine

variable {α β : Type} {engine engine' : Engine}

/-- Names do not influence a search. Take the clauses of an engine and a goal, and give
other names to the variables of each clause and of the goal, for each of them by itself:
different variables get different names, and the anonymous variable keeps its own. Then a
search calls the same predicates at the same depths, delivers as many solutions with the same
stamps and tops and with the same terms in all slots, and ends in the same way, with the same
counters or the same error. Calls and terms are the same apart from the names of variables.
The listeners may be different ones, as long as they ignore names. -/
theorem solve_renamed (h : engine.Renamed engine') {goal : Term} {f : String → String}
    (hf : Renames f goal.names) {R : α → β → Prop} {listener : Listener α}
    {listener' : Listener β} (hlistener : listener.IgnoresNames engine.index R listener')
    {value : α} {value' : β} (hvalue : R value value') (steps : Nat) :
    List.Forall₂ Event.Renamed (engine.events steps goal listener value)
        (engine'.events steps (goal.renamed f) listener' value') ∧
      (engine.solve steps goal listener value).Renamed R
        (engine'.solve steps (goal.renamed f) listener' value') := by
  obtain ⟨hconfig, hindex, hclauses⟩ := h
  have hbegin : (engine.begin goal value).Renamed engine.config engine.index R
      (engine'.begin (goal.renamed f) value') := by
    refine ⟨rfl, Search.start_renamed engine.config hf, ⟨rfl, fun key => ?_⟩, hvalue⟩
    have hkey := hclauses key
    rwa [clauses, clauses, hindex] at hkey
  have hevents : engine'.events steps (goal.renamed f) listener' value' =
      Search.events engine.config engine.index (goal.renamed f).normalize.vars listener' steps
        (engine'.begin (goal.renamed f) value') := by
    rw [events, hconfig, hindex]
  have hsolve : engine'.solve steps (goal.renamed f) listener' value' =
      Search.run engine.config engine.index (goal.renamed f).normalize.vars listener' steps
        (engine'.begin (goal.renamed f) value') := by
    rw [← hconfig, ← hindex]
    rfl
  rw [hevents, hsolve]
  exact Search.run_renamed hlistener hbegin

/-- Goes on after every solution. -/
def goOn : Listener Unit := fun _ env _ => (.continue, env, ())

/-- The names `X` and `Y` change places. -/
def exchange (name : String) : String :=
  if name = "X" then "Y" else if name = "Y" then "X" else name

/-- An engine with the fact `p(X, Y, X)`, the variables of which have the given names. -/
def repeating (x y : String) : Engine :=
  offering {}
    [⟨⟨"p", [.var ⟨x, some 0⟩, .var ⟨y, some 1⟩, .var ⟨x, some 0⟩], 2⟩, .atom "true", [x, y], 0⟩]

/-- Exchanging two names renames, whatever the names are. -/
theorem exchange_renames (names : Set String) : Renames exchange names := by
  have hinvolutive : ∀ name, exchange (exchange name) = name := fun name => by
    unfold exchange
    split_ifs <;> simp_all
  exact ⟨by decide, (Function.LeftInverse.injective hinvolutive).injOn⟩

/-- A listener that always goes on does not look at names. -/
theorem goOn_ignoresNames (index : ClauseIndex) :
    goOn.IgnoresNames index (fun _ _ => True) goOn where
  signal _ _ _ _ _ _ _ _ _ := rfl
  environment _ _ _ _ _ _ _ henv _ := henv
  value _ _ _ _ _ _ _ _ _ := trivial

/-- The goal `p(X, a, Z)` among the fact `p(X, Y, X)`, and the goal `p(Y, a, Z)` among the fact
`p(Y, X, Y)`. -/
theorem solve_renamed_exchange :
    (repeating "X" "Y").Renamed (repeating "Y" "X") ∧
      List.Forall₂ Event.Renamed
        ((repeating "X" "Y").events 8 (.apply "p" [.var ⟨"X", none⟩, .atom "a", .var ⟨"Z", none⟩])
          goOn ())
        ((repeating "Y" "X").events 8 (.apply "p" [.var ⟨"Y", none⟩, .atom "a", .var ⟨"Z", none⟩])
          goOn ()) ∧
      ((repeating "Y" "X").solve 8 (.apply "p" [.var ⟨"Y", none⟩, .atom "a", .var ⟨"Z", none⟩])
        goOn ()).ending = .finished ⟨1, 1, false⟩ := by
  have hrenamed : (repeating "X" "Y").Renamed (repeating "Y" "X") := by
    refine ⟨rfl, rfl, fun key => ?_⟩
    rw [repeating, repeating, clauses_offering, clauses_offering]
    refine .cons ?_ .nil
    exact ⟨0, .apply "p" [.var ⟨"X", none⟩, .var ⟨"Y", none⟩, .var ⟨"X", none⟩], .atom "true",
      exchange, exchange_renames _, by with_unfolding_all rfl, by with_unfolding_all rfl⟩
  obtain ⟨hevents, hreport⟩ := solve_renamed hrenamed
    (exchange_renames (Term.apply "p" [.var ⟨"X", none⟩, .atom "a", .var ⟨"Z", none⟩]).names)
    (goOn_ignoresNames _) trivial 8
  refine ⟨hrenamed, hevents, ?_⟩
  have hfinished : ((repeating "X" "Y").solve 8
      (.apply "p" [.var ⟨"X", none⟩, .atom "a", .var ⟨"Z", none⟩]) goOn ()).ending =
        .finished ⟨1, 1, false⟩ := by cbv
  exact hreport.ending.trans hfinished

/-- The goal `X = NaN`, with a variable of the given name. -/
def unequal (x : String) : Term :=
  .apply "=" [.var ⟨x, none⟩, .number (.float ⟨0x7ff8000000000000⟩)]

/-- The values of `X` and `Y` at the solutions of `X = NaN` and of `Y = NaN` are not equal,
wherever they are stored, because a number that is not a number is not equal to itself. -/
theorem lookup_not_same :
    (ofConfig {}).Renamed (ofConfig {}) ∧ Renames exchange (unequal "X").names ∧
      (unequal "X").renamed exchange = unequal "Y" ∧
      ∃ s s' t t', (ofConfig {}).events 8 (unequal "X") goOn () = [.solution s] ∧
        (ofConfig {}).events 8 (unequal "Y") goOn () = [.solution s'] ∧
        s.store.lookup s.context 0 = some t ∧ s'.store.lookup s'.context 0 = some t' ∧
        ∀ (layout : Layout) (o o' : Occurrence), o.term = t → o'.term = t' →
          layout.equal o o' = false := by
  have hclauses : ∀ key, List.Forall₂ Clause.Renamed ((ofConfig {}).clauses key)
      ((ofConfig {}).clauses key) := fun key => by
    rw [clauses_ofConfig]
    exact .nil
  refine ⟨⟨rfl, rfl, hclauses⟩, exchange_renames _, rfl, ?_⟩
  refine ⟨⟨⟨#[⟨0, ⟨0, 2, .number (.float ⟨0x7ff8000000000000⟩)⟩, 0⟩]⟩, ⟨1, 1⟩, [⟨"X", some 0⟩]⟩,
    ⟨⟨#[⟨0, ⟨0, 2, .number (.float ⟨0x7ff8000000000000⟩)⟩, 0⟩]⟩, ⟨1, 1⟩, [⟨"Y", some 0⟩]⟩,
    .number (.float ⟨0x7ff8000000000000⟩), .number (.float ⟨0x7ff8000000000000⟩),
    ?_, ?_, ?_, ?_, ?_⟩
  · cbv
  · cbv
  · cbv
  · cbv
  · intro layout o o' ho ho'
    rw [layout.equal_eq_sameNode (by rw [ho]; rfl), ho, ho']
    decide +kernel

end Engine

end ClauseResolution
