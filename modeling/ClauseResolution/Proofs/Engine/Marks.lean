import ClauseResolution.Proofs.Engine.Freshness
import ClauseResolution.Proofs.Engine.Termination
import ClauseResolution.Proofs.Search.Moves
import ClauseResolution.Proofs.Search.Pruning
import ClauseResolution.Proofs.Unification.Persistence

/-!
# Reclaiming spares what is reached

A search drops bindings from a mark on where a head does not unify, and where it goes back.
The size of the store goes up with every binding, and down with every such mark, while cuts
take marks away. In every state that is reached the marks do not decrease, they lie above the
stamps and within the store. So no entry is dropped that is on the chain of a context to which
the search can still come, and a look-up never misses an entry that is named as a parent.
-/

namespace ClauseResolution

open Relation (ReflTransGen)

namespace Store

variable {σ τ : Store} {c d : Context} {stamp mark i : Nat}

/-- The position of an entry on the chain from a stamp, on which one goes from an entry straight
to the parent that the entry names. -/
inductive OnChain (σ : Store) : Nat → Nat → Prop
  /-- The entry of the stamp, whether it is there or not. -/
  | entry (stamp : Nat) : OnChain σ (stamp + 1) stamp
  /-- An entry on the chain from the parent. -/
  | parent {stamp i : Nat} {binding : Binding} (hentry : σ.entries[stamp]? = some binding)
      (hrest : OnChain σ binding.parent i) : OnChain σ (stamp + 1) i

/-- Dropping the entries from a mark on spares a context: all entries on its chain are there, and
stay as they are. -/
def Spares (σ : Store) (mark : Nat) (c : Context) : Prop :=
  ∀ i, σ.OnChain c.stamp i →
    ∃ binding, σ.entries[i]? = some binding ∧ (σ.truncate mark).entries[i]? = some binding

/-- The stores and contexts that are made from one context by bindings, each in the context before.
A unification looks things up in these only, for nothing else changes what it works on. -/
inductive Binds (σ : Store) (c : Context) : Store → Context → Prop
  /-- Nothing is bound yet. -/
  | refl : Binds σ c σ c
  /-- A variable is bound. -/
  | bind {τ υ : Store} {d e : Context} {v : Var} {value : Occurrence} (h : Binds σ c τ d)
      (hbind : τ.bind d v value = (υ, e)) : Binds σ c υ e

/-- Where every entry names an older one, the entries on a chain are older than its stamp. -/
theorem OnChain.lt (h : σ.OnChain stamp i) (hordered : σ.Ordered) : i < stamp := by
  induction h with
  | entry stamp => exact Nat.lt_succ_self stamp
  | parent hentry _ ih =>
    have hparent := hordered _ _ hentry
    omega

/-- A mark at or above the stamp spares the context. -/
theorem Ordered.spares (h : σ.Ordered) (hmark : mark ≤ σ.size) (hstamp : c.stamp ≤ mark) :
    σ.Spares mark c := by
  intro i hi
  have hlt : i < mark := (hi.lt h).trans_le hstamp
  have hentry : σ.entries[i]? = some _ := Array.getElem?_eq_getElem (hlt.trans_le hmark)
  exact ⟨_, hentry, (σ.agreeBelow_truncate mark i hlt).symm.trans hentry⟩

/-- A store stays ordered when it is reclaimed. -/
theorem Ordered.reclaim (h : σ.Ordered) (config : Config) (mark : Nat) :
    (config.reclaim mark σ).Ordered := by
  rw [Config.reclaim]
  split
  · intro i binding hentry
    rw [truncate, ← Array.getElem?_toList, Array.toList_shrink, List.getElem?_take] at hentry
    split at hentry
    · exact h i binding (by rwa [← Array.getElem?_toList])
    · cases hentry
  · exact h

/-- The stamps of supported choice points lie at or below their marks. -/
theorem Supports.stamp_le_mark {size : Nat} {points : List ChoicePoint} {point : ChoicePoint}
    (h : σ.Supports size points) (hpoint : point ∈ points) : point.context.stamp ≤ point.mark := by
  induction points generalizing size with
  | nil => cases hpoint
  | cons newest points ih =>
    obtain ⟨_, hstamp, _, hrest⟩ := h
    rcases List.mem_cons.1 hpoint with rfl | hpoint
    · exact hstamp
    · exact ih hrest hpoint

/-- The marks of supported choice points do not increase from the newest to the oldest. -/
theorem Supports.pairwise_mark_le {size : Nat} {points : List ChoicePoint}
    (h : σ.Supports size points) :
    points.Pairwise fun newer older => older.mark ≤ newer.mark := by
  induction points generalizing size with
  | nil => exact .nil
  | cons newest points ih =>
    obtain ⟨_, _, _, hrest⟩ := h
    exact .cons (fun older holder => hrest.mark_le holder) (ih hrest)

/-- Reclaiming does not go below the mark. -/
theorem le_size_reclaim (h : mark ≤ σ.size) (config : Config) :
    mark ≤ (config.reclaim mark σ).size := ((Keeps.refl h).reclaim config).le

/-- Bindings that follow bindings are bindings made from the first context. -/
theorem Binds.trans {υ : Store} {e : Context} (h : σ.Binds c τ d) (h' : τ.Binds d υ e) :
    σ.Binds c υ e := by
  induction h' with
  | refl => exact h
  | bind _ hbind ih => exact ih.bind hbind

/-- Bindings in a context of the store add to the store, and yield one of its contexts. -/
theorem Binds.appends (h : σ.Binds c τ d) (hordered : σ.Ordered) (hc : σ.Holds c) :
    σ.Appends τ ∧ τ.Holds d := by
  induction h with
  | refl => exact ⟨.refl hordered, hc⟩
  | bind _ hbind ih =>
    obtain ⟨happends, hd⟩ := ih
    obtain ⟨hbound, he⟩ := appends_of_bind_eq happends.ordered hd hbind
    exact ⟨happends.trans hbound, he⟩

end Store

/-- How a unification ends comes about by bindings. -/
def Unified.Binds (σ : Store) (c : Context) : Unified → Prop
  | .unified τ d => σ.Binds c τ d
  | .clash τ => ∃ d, σ.Binds c τ d
  | .unfinished => True

namespace Store

variable {σ τ : Store} {c d : Context}

/-- What comes about by bindings after bindings comes about by bindings. -/
theorem Binds.of_binds (h : σ.Binds c τ d) {result : Unified} (hresult : result.Binds τ d) :
    result.Binds σ c := by
  cases result with
  | unified υ e => exact h.trans hresult
  | clash υ =>
    obtain ⟨e, hresult⟩ := hresult
    exact ⟨e, h.trans hresult⟩
  | unfinished => trivial

/-- A unification does nothing to the store but to bind. -/
theorem binds_unifyPairs (layout : Layout) (occursCheck : Bool) (steps : Nat) (σ : Store)
    (c : Context) (entered pending : List (Occurrence × Occurrence)) :
    (unifyPairs layout occursCheck steps σ c entered pending).Binds σ c := by
  fun_induction unifyPairs layout occursCheck steps σ c entered pending
  case case1 => exact .refl
  case case2 => trivial
  case case7 | case10 | case16 | case18 | case20 | case21 => exact ⟨_, .refl⟩
  case case5 ih | case8 ih | case11 ih =>
    have hbind := ‹Store.bind _ _ _ _ = _›
    exact (Binds.refl.bind hbind).of_binds ih
  case case3 ih | case4 ih | case6 ih | case9 ih | case12 ih | case13 ih | case14 ih | case15 ih |
      case17 ih | case19 ih =>
    exact ih

/-- Nor does unifying a call with a head. -/
theorem binds_unifyHead (config : Config) (steps : Nat) (σ : Store) (c : Context) (call : Call)
    (head : Occurrence) : (call.unifyHead config steps σ c head).Binds σ c := by
  rw [Call.unifyHead]
  cases head.term with
  | compound functor args varCount =>
    dsimp only
    split
    · exact binds_unifyPairs _ config.occursCheck steps σ c [] _
    · exact ⟨c, .refl⟩
  | atom | number | var => exact ⟨c, .refl⟩

/-- Unifying a call with a head binds in the context of the call. -/
theorem binds_of_unifyHead_unified {config : Config} {steps : Nat} {call : Call}
    {head : Occurrence} (h : call.unifyHead config steps σ c head = .unified τ d) :
    σ.Binds c τ d := by
  have hbinds := binds_unifyHead config steps σ c call head
  rwa [h] at hbinds

/-- Unifying a call with a head binds in the context of the call, also if it fails. -/
theorem binds_of_unifyHead_clash {config : Config} {steps : Nat} {call : Call}
    {head : Occurrence} (h : call.unifyHead config steps σ c head = .clash τ) :
    ∃ d, σ.Binds c τ d := by
  have hbinds := binds_unifyHead config steps σ c call head
  rwa [h] at hbinds

end Store

/-- What a search does with the store while it takes a turn. -/
inductive StoreUse
  /-- Variables are looked up in a context. -/
  | lookUp (σ : Store) (c : Context)
  /-- Bindings are reclaimed from a mark on. The search continues with a context, and with choice
  points. -/
  | reclaim (σ : Store) (mark : Nat) (c : Context) (points : Array ChoicePoint)

/-- A look-up goes from entry to parent within the store. Reclaiming starts within the store and
spares the contexts that are still needed. -/
def StoreUse.Safe : StoreUse → Prop
  | .lookUp σ c => ∀ slot, ∃ stamps, σ.Reads slot c.stamp stamps (σ.valueAt c slot) ∧
    ∀ stamp ∈ stamps, 0 < stamp ∧ stamp ≤ σ.size
  | .reclaim σ mark c points =>
    mark ≤ σ.size ∧ σ.Spares mark c ∧ ∀ point ∈ points, σ.Spares mark point.context

/-- What a look for a matching clause does with the store. -/
inductive MatchUses (config : Config) (steps : Nat) (c : Context) (mark : Nat) (call : Call)
    (points : Array ChoicePoint) : Store → List Clause → StoreUse → Prop
  /-- The call is unified with the head of the first clause. -/
  | head {σ τ : Store} {d : Context} {clause : Clause} {clauses : List Clause}
      (hbinds : σ.Binds (clause.rename c).context τ d) :
      MatchUses config steps c mark call points σ (clause :: clauses) (.lookUp τ d)
  /-- What was bound in vain is reclaimed. -/
  | reclaim {σ τ : Store} {clause : Clause} {clauses : List Clause}
      (hclash : call.unifyHead config steps σ (clause.rename c).context (clause.rename c).head =
        .clash τ) :
      MatchUses config steps c mark call points σ (clause :: clauses) (.reclaim τ mark c points)
  /-- The other clauses are looked at. -/
  | later {σ τ : Store} {clause : Clause} {clauses : List Clause} {use : StoreUse}
      (hclash : call.unifyHead config steps σ (clause.rename c).context (clause.rename c).head =
        .clash τ)
      (hlater : MatchUses config steps c mark call points (config.reclaim mark τ) clauses use) :
      MatchUses config steps c mark call points σ (clause :: clauses) use

/-- A store that comes of another one by bindings in its contexts, and by reclaiming where this is
among the uses. -/
inductive Store.Changes (config : Config) (uses : StoreUse → Prop) (σ : Store) : Store → Prop
  /-- Nothing is changed. -/
  | refl : Changes config uses σ σ
  /-- Variables are bound. -/
  | binds {τ υ : Store} {c d : Context} (h : Changes config uses σ τ) (hc : τ.Holds c)
      (hbinds : τ.Binds c υ d) : Changes config uses σ υ
  /-- Bindings are reclaimed. -/
  | reclaim {τ : Store} {mark : Nat} {c : Context} {points : Array ChoicePoint}
      (h : Changes config uses σ τ) (huse : uses (.reclaim τ mark c points)) :
      Changes config uses σ (config.reclaim mark τ)

namespace Search

/-- What entering a clause does with the store. -/
def EnterUses (config : Config) (steps : Nat) (call : Call) (clauses : List Clause)
    (state : Search) : StoreUse → Prop :=
  MatchUses config steps state.context state.store.size call state.choices state.store clauses

/-- The search that is about to take up a choice point, which is its newest one. -/
def popped (config : Config) (point : ChoicePoint) (state : Search) : Search :=
  ⟨config.reclaim point.mark state.store, point.context, state.continuation, state.choices.pop,
    state.inferences⟩

/-- What going back does with the store. -/
inductive BackUses (config : Config) (steps : Nat) : Search → StoreUse → Prop
  /-- What was bound since the newest choice point is reclaimed. -/
  | reclaim {state : Search} {point : ChoicePoint} (hlast : state.choices.back? = some point) :
      BackUses config steps state
        (.reclaim state.store point.mark point.context state.choices.pop)
  /-- The clauses that are left at the choice point are tried. -/
  | enter {state : Search} {c : Context} {mark depth : Nat} {call : Call} {untried : List Clause}
      {next : List Frame} {use : StoreUse}
      (hlast : state.choices.back? = some ⟨c, mark, .clauses call untried depth next⟩)
      (henter : EnterUses config steps call untried
        (state.popped config ⟨c, mark, .clauses call untried depth next⟩) use) :
      BackUses config steps state use
  /-- None of them matches, and the search goes back further. -/
  | again {state missed : Search} {c : Context} {mark depth : Nat} {call : Call}
      {untried : List Clause} {next : List Frame} {use : StoreUse}
      (hlast : state.choices.back? = some ⟨c, mark, .clauses call untried depth next⟩)
      (hmissed : Search.enter config steps call untried depth next
        (state.popped config ⟨c, mark, .clauses call untried depth next⟩) = .missed missed)
      (hagain : BackUses config steps missed use) : BackUses config steps state use

/-- What a turn may do with the store, whatever goal is next. -/
inductive Uses (config : Config) (clausesOf : String → List Clause) (steps : Nat)
    (state : Search) : StoreUse → Prop
  /-- Goals are followed, terms are unified, or the solution is read. -/
  | lookUp {σ : Store} {c : Context} (hbinds : state.store.Binds state.context σ c) :
      Uses config clausesOf steps state (.lookUp σ c)
  /-- A clause for a call is entered. -/
  | enter {call : Call} {use : StoreUse}
      (henter : EnterUses config steps call (clausesOf call.indicator) state use) :
      Uses config clausesOf steps state use
  /-- The search goes back, after a failure or after a solution. -/
  | back {last : Search} {use : StoreUse}
      (hstep : state.advance config clausesOf steps = .backtrack last ∨
        state.advance config clausesOf steps = .solution last)
      (hback : BackUses config steps last use) : Uses config clausesOf steps state use

/-- The marks of the choice points do not decrease from the oldest to the newest and lie within the
store, and stamps lie below the marks. -/
structure MarksOrdered (state : Search) : Prop where
  /-- The marks do not decrease. -/
  sorted : state.choices.toList.Pairwise fun older newer => older.mark ≤ newer.mark
  /-- No mark lies beyond the store. -/
  mark_le_size : ∀ point ∈ state.choices, point.mark ≤ state.store.size
  /-- The stamp of a choice point lies at or below its mark. -/
  stamp_le_mark : ∀ point ∈ state.choices, point.context.stamp ≤ point.mark
  /-- The current stamp does not lie beyond the store. -/
  stamp_le_size : state.context.stamp ≤ state.store.size

end Search

section Safe

variable {config : Config} {steps mark : Nat} {σ τ : Store} {c d : Context} {call : Call}
  {clauses : List Clause} {clause : Clause} {points : Array ChoicePoint} {use : StoreUse}

/-- A look-up in a context of a store in order is safe. -/
theorem Store.Ordered.safe_lookUp (h : σ.Ordered) (hc : σ.Holds c) :
    (StoreUse.lookUp σ c).Safe := by
  intro slot
  obtain ⟨stamps, hreads, hbound, _⟩ := σ.exists_reads h hc slot
  exact ⟨stamps, hreads, fun stamp hmem => ⟨hreads.pos_of_mem hmem, (hbound stamp hmem).trans hc⟩⟩

/-- Look-ups in the course of a unification are safe. -/
theorem Store.Binds.safe_lookUp (h : σ.Binds c τ d) (hordered : σ.Ordered) (hc : σ.Holds c) :
    (StoreUse.lookUp τ d).Safe := by
  obtain ⟨happends, hd⟩ := h.appends hordered hc
  exact happends.ordered.safe_lookUp hd

/-- A unification with a head that fails leaves the store in order and does not shorten it. -/
theorem Store.Ordered.of_clash (hordered : σ.Ordered) (hc : σ.Holds (clause.rename c).context)
    (hclash : call.unifyHead config steps σ (clause.rename c).context (clause.rename c).head =
      .clash τ) : τ.Ordered ∧ σ.size ≤ τ.size := by
  obtain ⟨d, hbinds⟩ := Store.binds_of_unifyHead_clash hclash
  obtain ⟨happends, _⟩ := hbinds.appends hordered hc
  exact ⟨happends.ordered, happends.grows.size_le⟩

/-- A look for a matching clause uses the store safely, if it reclaims from a mark on that is above
the stamps. -/
theorem MatchUses.safe (huse : MatchUses config steps c mark call points σ clauses use)
    (hordered : σ.Ordered) (hmark : mark ≤ σ.size) (hstamp : c.stamp ≤ mark)
    (hpoints : ∀ point ∈ points, point.context.stamp ≤ mark) : use.Safe := by
  induction huse with
  | head hbinds => exact hbinds.safe_lookUp hordered (hstamp.trans hmark)
  | reclaim hclash =>
    -- The bindings made in vain lie above the mark, and the stamps lie below it.
    obtain ⟨hordered', hgrows⟩ := hordered.of_clash (hstamp.trans hmark) hclash
    have hmark' := hmark.trans hgrows
    exact ⟨hmark', hordered'.spares hmark' hstamp,
      fun point hpoint => hordered'.spares hmark' (hpoints point hpoint)⟩
  | later hclash _ ih =>
    obtain ⟨hordered', hgrows⟩ := hordered.of_clash (hstamp.trans hmark) hclash
    exact ih (hordered'.reclaim config mark) (Store.le_size_reclaim (hmark.trans hgrows) config)

end Safe

namespace Store.Changes

variable {config : Config} {uses uses' : StoreUse → Prop} {σ τ υ : Store}

/-- Changes that follow changes are changes. -/
theorem trans (h : σ.Changes config uses τ) (h' : τ.Changes config uses υ) :
    σ.Changes config uses υ := by
  induction h' with
  | refl => exact h
  | binds _ hc hbinds ih => exact ih.binds hc hbinds
  | reclaim _ huse ih => exact ih.reclaim huse

/-- More uses allow for more changes. -/
theorem mono (h : σ.Changes config uses τ) (huses : ∀ use, uses use → uses' use) :
    σ.Changes config uses' τ := by
  induction h with
  | refl => exact .refl
  | binds _ hc hbinds ih => exact ih.binds hc hbinds
  | reclaim _ huse ih => exact ih.reclaim (huses _ huse)

/-- A store in order stays in order. -/
theorem ordered (h : σ.Changes config uses τ) (hordered : σ.Ordered) : τ.Ordered := by
  induction h with
  | refl => exact hordered
  | binds _ hc hbinds ih => exact (hbinds.appends ih hc).1.ordered
  | reclaim _ _ ih => exact ih.reclaim config _

end Store.Changes

/-- What the look for a matching clause makes of a store. -/
def ClauseMatch.Changes (config : Config) (uses : StoreUse → Prop) (σ : Store) : ClauseMatch → Prop
  | .found τ .. | .missing τ => σ.Changes config uses τ
  | .unfinished => True

/-- What entering a clause makes of a store. -/
def Entry.Changes (config : Config) (uses : StoreUse → Prop) (σ : Store) : Entry → Prop
  | .entered state | .missed state => σ.Changes config uses state.store
  | .unfinished => True

/-- What a step makes of a store. -/
def Move.Changes (config : Config) (uses : StoreUse → Prop) (σ : Store) : Move → Prop
  | .proceed state | .backtrack state | .solution state => σ.Changes config uses state.store
  | .error _ | .unfinished => True

/-- What going back makes of a store. -/
def Search.Resumption.Changes (config : Config) (uses : StoreUse → Prop) (σ : Store) :
    Search.Resumption → Prop
  | .resumed state | .exhausted state => σ.Changes config uses state.store
  | .unfinished => True

section Changes

variable {config : Config} {clausesOf : String → List Clause} {steps depth mark : Nat}
  {σ τ : Store} {c : Context} {call : Call} {clauses : List Clause} {next : List Frame}
  {state : Search} {uses uses' : StoreUse → Prop}

/-- What is made of a changed store is made of the store before, by the uses of both. -/
theorem ClauseMatch.Changes.of_changes {result : ClauseMatch} (h : result.Changes config uses τ)
    (hchanges : σ.Changes config uses' τ) (huses : ∀ use, uses use → uses' use) :
    result.Changes config uses' σ := by
  cases result with
  | found | missing => exact hchanges.trans (h.mono huses)
  | unfinished => trivial

/-- What going back makes of a changed store it makes of the store before, by the uses of both. -/
theorem Search.Resumption.Changes.of_changes {result : Search.Resumption}
    (h : result.Changes config uses τ) (hchanges : σ.Changes config uses' τ)
    (huses : ∀ use, uses use → uses' use) : result.Changes config uses' σ := by
  cases result with
  | resumed | exhausted => exact hchanges.trans (h.mono huses)
  | unfinished => trivial

/-- The look for a matching clause changes the store by its uses only. -/
theorem firstMatch_changes (points : Array ChoicePoint) (hordered : σ.Ordered)
    (hmark : mark ≤ σ.size) (hstamp : c.stamp ≤ mark) :
    (firstMatch config steps c mark call σ clauses).Changes config
      (MatchUses config steps c mark call points σ clauses) σ := by
  induction clauses generalizing σ with
  | nil => exact Store.Changes.refl
  | cons clause clauses ih =>
    have hc : σ.Holds (clause.rename c).context := hstamp.trans hmark
    rw [firstMatch]
    cases hhead : call.unifyHead config steps σ (clause.rename c).context
        (clause.rename c).head with
    | unified τ d => exact Store.Changes.refl.binds hc (Store.binds_of_unifyHead_unified hhead)
    | clash τ =>
      obtain ⟨d, hbinds⟩ := Store.binds_of_unifyHead_clash hhead
      obtain ⟨hordered', hgrows⟩ := hordered.of_clash hc hhead
      have hlater := ih (hordered'.reclaim config mark)
        (Store.le_size_reclaim (hmark.trans hgrows) config)
      exact hlater.of_changes ((Store.Changes.refl.binds hc hbinds).reclaim (.reclaim hhead))
        fun use huse => .later hhead huse
    | unfinished => trivial

namespace Search

/-- A sound search, with the entries of its store in order. -/
structure Secure (state : Search) : Prop where
  /-- All contexts belong to the store, and no mark is below a chain that is needed. -/
  sound : state.Sound
  /-- Every entry extends an older context. -/
  ordered : state.store.Ordered

/-- Entering a clause changes the store of a secure search by its uses only. -/
theorem Secure.enter_changes {entry : Entry} (h : state.Secure)
    (henter : enter config steps call clauses depth next state = entry) :
    entry.Changes config (EnterUses config steps call clauses state) state.store := by
  obtain ⟨σ, c, continuation, choices, inferences⟩ := state
  have hmatch : (firstMatch config steps c σ.size call σ clauses).Changes config
      (MatchUses config steps c σ.size call choices σ clauses) σ :=
    firstMatch_changes choices h.ordered (le_refl σ.size) h.sound.holds
  rw [← henter, enter]
  dsimp only
  cases hfirst : firstMatch config steps c σ.size call σ clauses with
  | found | missing =>
    rw [hfirst] at hmatch
    exact hmatch
  | unfinished => trivial

/-- A step forward changes the store of a secure search by its uses only. -/
theorem Secure.advance_changes (h : state.Secure) :
    (state.advance config clausesOf steps).Changes config (Uses config clausesOf steps state)
      state.store := by
  have hbinds : ∀ left right,
      (ClauseResolution.unify .byOccurrence config.occursCheck steps state.store state.context
        left right).Binds state.store state.context := fun left right =>
    Store.binds_unifyPairs ..
  have hdoes := state.does_advance config clausesOf steps
  generalize state.advance config clausesOf steps = move at hdoes ⊢
  cases hdoes with
  | error | unfinished => trivial
  | solution | continued | failed | cut | offered => exact Store.Changes.refl
  | unified left right frames hunify | refuted left right frames hunify =>
    have hunified := hbinds left right
    rw [hunify] at hunified
    exact Store.Changes.refl.binds h.sound.holds hunified
  | clashed left right frames hunify | differed left right frames hunify =>
    have hclashed := hbinds left right
    rw [hunify] at hclashed
    obtain ⟨d, hclashed⟩ := hclashed
    exact Store.Changes.refl.binds h.sound.holds hclashed
  | @entered call depth next t henter | @missed call depth next t henter =>
    have hcounted :
        Secure ⟨state.store, state.context, next, state.choices, state.inferences + 1⟩ :=
      ⟨⟨h.sound.holds, h.sound.settles, h.sound.supports⟩, h.ordered⟩
    exact (hcounted.enter_changes henter).mono fun use huse => .enter huse

/-- The newest choice point of a secure search can be taken up. -/
theorem Secure.popped {point : ChoicePoint} (h : state.Secure) (config : Config)
    (hlast : state.choices.back? = some point) : (state.popped config point).Secure :=
  ⟨(h.sound.reclaim config hlast state.continuation).1, h.ordered.reclaim config point.mark⟩

/-- A look for a clause in vain leaves the search secure. -/
theorem Secure.of_missed {missed : Search} (h : state.Secure)
    (hmissed : enter config steps call clauses depth next state = .missed missed) :
    missed.Secure := by
  obtain ⟨hsound, _⟩ := enter_view config steps h.sound call clauses depth next
  rw [hmissed] at hsound
  exact ⟨hsound, Store.Changes.ordered (h.enter_changes hmissed) h.ordered⟩

/-- Taking up the newest choice point reclaims what was bound since. -/
theorem changes_popped {point : ChoicePoint} (steps : Nat) (state : Search)
    (hlast : state.choices.back? = some point) :
    state.store.Changes config (BackUses config steps state) (state.popped config point).store := by
  have huse : BackUses config steps state
      (.reclaim state.store point.mark point.context state.choices.pop) := .reclaim hlast
  exact Store.Changes.refl.reclaim huse

/-- Going back changes the store of a secure search by its uses only. -/
theorem Secure.backtrack_changes (h : state.Secure) :
    (state.backtrack config steps).Changes config (BackUses config steps state) state.store := by
  fun_induction backtrack config steps state with
  | case1 => exact Store.Changes.refl
  | case2 σ c continuation choices inferences context mark goal barrier depth next hlast =>
    exact changes_popped steps ⟨σ, c, continuation, choices, inferences⟩ hlast
  | case3 σ c continuation choices inferences context mark call untried depth next hlast σ' state'
      henter =>
    have hentered := (h.popped config hlast).enter_changes henter
    exact (changes_popped steps _ hlast).trans (hentered.mono fun use huse => .enter hlast huse)
  | case4 σ c continuation choices inferences context mark call untried depth next hlast σ' state'
      henter ih =>
    have hpopped := h.popped config hlast
    have hmissed := (changes_popped steps _ hlast).trans
      ((hpopped.enter_changes henter).mono fun use huse => .enter hlast huse)
    exact (ih (hpopped.of_missed henter)).of_changes hmissed
      fun use huse => .again hlast henter huse
  | case5 => trivial

/-- The search after a step that does not go on is secure. -/
theorem Secure.of_advance {last : Search} (h : state.Secure)
    (hstep : state.advance config clausesOf steps = .backtrack last ∨
      state.advance config clausesOf steps = .solution last) :
    last.Secure ∧ state.store.Changes config (Uses config clausesOf steps state) last.store := by
  obtain ⟨hsound, _⟩ := advance_view config clausesOf steps h.sound
  have hchanges : (state.advance config clausesOf steps).Changes config
      (Uses config clausesOf steps state) state.store := h.advance_changes
  rcases hstep with hstep | hstep <;>
    rw [hstep] at hsound hchanges <;>
    exact ⟨⟨hsound, hchanges.ordered h.ordered⟩, hchanges⟩

/-- Going back after such a step changes the store by the uses of the turn only. -/
theorem Secure.return_changes {last : Search} (h : state.Secure)
    (hstep : state.advance config clausesOf steps = .backtrack last ∨
      state.advance config clausesOf steps = .solution last) :
    (last.backtrack config steps).Changes config (Uses config clausesOf steps state) last.store :=
  (h.of_advance hstep).1.backtrack_changes.of_changes .refl fun _ huse => .back hstep huse

/-- The marks of a sound search are ordered. -/
theorem Sound.marksOrdered (h : state.Sound) : state.MarksOrdered where
  sorted := List.pairwise_reverse.1 h.supports.pairwise_mark_le
  mark_le_size _ hpoint := h.supports.mark_le (List.mem_reverse.2 hpoint.val)
  stamp_le_mark _ hpoint := h.supports.stamp_le_mark (List.mem_reverse.2 hpoint.val)
  stamp_le_size := h.holds

section Uses

variable {use : StoreUse}

/-- Entering a clause uses the store of a secure search safely. -/
theorem EnterUses.safe (huse : EnterUses config steps call clauses state use) (h : state.Secure) :
    use.Safe := by
  have hmarks := h.sound.marksOrdered
  exact MatchUses.safe huse h.ordered (le_refl _) h.sound.holds fun point hpoint =>
    (hmarks.stamp_le_mark point hpoint).trans (hmarks.mark_le_size point hpoint)

/-- Going back uses the store of a secure search safely. -/
theorem BackUses.safe (huse : BackUses config steps state use) (h : state.Secure) : use.Safe := by
  induction huse with
  | @reclaim state point hlast =>
    have hsupports := h.sound.supports
    rw [points_of_back? hlast] at hsupports
    obtain ⟨hmark, hstamp, _, hrest⟩ := hsupports
    refine ⟨hmark, h.ordered.spares hmark hstamp, fun older holder => h.ordered.spares hmark ?_⟩
    -- An older choice point has its stamp below its own mark, which is not above the newest one.
    have hmem : older ∈ state.choices.pop.toList.reverse := List.mem_reverse.2 holder.val
    exact (hrest.stamp_le_mark hmem).trans (hrest.mark_le hmem)
  | enter hlast henter => exact henter.safe (h.popped config hlast)
  | again hlast hmissed _ ih => exact ih ((h.popped config hlast).of_missed hmissed)

/-- A turn uses the store of a secure search safely. -/
theorem Uses.safe (huse : Uses config clausesOf steps state use) (h : state.Secure) :
    use.Safe := by
  cases huse with
  | lookUp hbinds => exact hbinds.safe_lookUp h.ordered h.sound.holds
  | enter henter => exact henter.safe h
  | back hstep hback => exact hback.safe (h.of_advance hstep).1

end Uses

section Run

variable {α : Type} {index : ClauseIndex} {vars : List Var} {listener : Listener α}
  {p q : Progress α}

/-- A turn changes the store of a secure search by its uses only. -/
theorem Secure.turn_changes (h : p.state.Secure)
    (hturn : turn config index vars listener steps p = .going q) :
    p.state.store.Changes config
      (Uses config (index.matching p.environment.providers) steps p.state) q.state.store := by
  rcases turn_going_cases hturn with hmove | ⟨last, hmove, hback⟩
  · have hchanges : (p.state.advance config (index.matching p.environment.providers)
        steps).Changes config _ p.state.store := h.advance_changes
    rw [hmove] at hchanges
    exact hchanges
  · obtain ⟨_, hchanges⟩ := h.of_advance hmove
    have hreturn := h.return_changes hmove
    rw [hback] at hreturn
    exact hchanges.trans hreturn

/-- A search is secure after a turn. -/
theorem Secure.of_follows (h : p.state.Secure) (hfollows : Follows config index vars listener p q) :
    q.state.Secure := by
  obtain ⟨steps, hturn⟩ := hfollows
  exact ⟨(turn_going h.sound hturn).1, (h.turn_changes hturn).ordered h.ordered⟩

/-- A search that is reached is secure. -/
theorem secure_of_reached (h : p.state.Secure)
    (hreached : ReflTransGen (Follows config index vars listener) p q) : q.state.Secure := by
  induction hreached with
  | refl => exact h
  | tail _ hfollows ih => exact ih.of_follows hfollows

end Run

end Search

end Changes

namespace Engine

variable {α : Type}

/-- In every state that is reached when a goal is solved, marks and stamps are ordered. Where the
next turn looks something up, it stays within the store. Where it reclaims bindings, it spares the
context that it continues with and those of all choice points that remain. Going forward and going
back change the store in no other way than by bindings and by what is reclaimed there. -/
theorem reclaiming_spares (engine : Engine) (goal : Term) (listener : Listener α) (value : α)
    {p : Progress α}
    (hreached : ReflTransGen
      (Search.Follows engine.config engine.index goal.normalize.vars listener)
      (engine.begin goal value) p) :
    p.state.MarksOrdered ∧
      (∀ clausesOf steps use,
        Search.Uses engine.config clausesOf steps p.state use → use.Safe) ∧
      ∀ clausesOf steps,
        (p.state.advance engine.config clausesOf steps).Changes engine.config
          (Search.Uses engine.config clausesOf steps p.state) p.state.store ∧
        ∀ last, (p.state.advance engine.config clausesOf steps = .backtrack last ∨
            p.state.advance engine.config clausesOf steps = .solution last) →
          (last.backtrack engine.config steps).Changes engine.config
            (Search.Uses engine.config clausesOf steps p.state) last.store := by
  have hstart : (Search.start goal.normalize).Secure :=
    ⟨Search.sound_start _, fun i binding hentry => by simp [Search.start, Store.empty] at hentry⟩
  have hsecure := Search.secure_of_reached hstart hreached
  exact ⟨hsecure.sound.marksOrdered, fun clausesOf steps use huse => huse.safe hsecure,
    fun clausesOf steps => ⟨hsecure.advance_changes, fun last => hsecure.return_changes⟩⟩

/-- When `fail` is reached in `X = a, ((Y = b, fail) ; true)`, the binding of `Y` is reclaimed, and
that of `X` is spared. -/
theorem reclaiming_spares_disjunction :
    let config : Config := { reclaimBindings := true }
    let assign (name value : String) := Term.apply "=" [.var ⟨name, none⟩, .atom value]
    let failing := Term.apply "," [assign "Y" "b", .atom "fail"]
    let goal := Term.apply "," [assign "X" "a", .apply ";" [failing, .atom "true"]]
    let root : Context := ⟨1, 2⟩
    ∃ p : Progress Unit,
      ReflTransGen (Search.Follows config (ofConfig config).index goal.normalize.vars first)
        ((ofConfig config).begin goal ()) p ∧
      p.state.choices.toList.map ChoicePoint.mark = [1] ∧ p.state.store.size = 2 ∧
      Search.Uses config (fun _ => []) 0 p.state (.reclaim p.state.store 1 root #[]) ∧
      p.state.store.Spares 1 root := by
  intro config assign failing goal root
  let env : Environment := { Environment.initial with interrupted := false }
  let assigned (name value : String) (slot : Nat) :=
    Term.compound "=" [.var ⟨name, some slot⟩, .atom value] 1
  let conjunction := Term.compound "," [assigned "Y" "b" 1, .atom "fail"] 1
  let bindingOfX : Binding := ⟨0, ⟨0, 3, .atom "a"⟩, 0⟩
  let bindingOfY : Binding := ⟨1, ⟨0, 8, .atom "b"⟩, 1⟩
  let point : ChoicePoint := ⟨root, 1, .goal ⟨0, 10, .atom "true"⟩ 0 0 []⟩
  let disjunction : Frame := .goal ⟨0, 4, .compound ";" [conjunction, .atom "true"] 1⟩ 0 0
  let state (entries : Array Binding) (c : Context) (frames : List Frame)
      (choices : Array ChoicePoint) : Progress Unit :=
    ⟨0, ⟨⟨entries⟩, c, frames, choices, 0⟩, env, ()⟩
  let p₁ := state #[] ⟨0, 2⟩ [.goal ⟨0, 1, assigned "X" "a" 0⟩ 0 0, disjunction] #[]
  let p₂ := state #[bindingOfX] root [disjunction] #[]
  let p₃ := state #[bindingOfX] root [.goal ⟨0, 5, conjunction⟩ 0 0] #[point]
  let p₄ := state #[bindingOfX] root
    [.goal ⟨0, 6, assigned "Y" "b" 1⟩ 0 0, .goal ⟨0, 9, .atom "fail"⟩ 0 0] #[point]
  let p := state #[bindingOfX, bindingOfY] ⟨2, 2⟩ [.goal ⟨0, 9, .atom "fail"⟩ 0 0] #[point]
  have hp : ReflTransGen
      (Search.Follows config (ofConfig config).index goal.normalize.vars first)
      ((ofConfig config).begin goal ()) p :=
    ((((ReflTransGen.single (b := p₁) ⟨0, by cbv⟩).tail (c := p₂) ⟨1, by cbv⟩).tail (c := p₃)
      ⟨0, by cbv⟩).tail (c := p₄) ⟨0, by cbv⟩).tail ⟨1, by cbv⟩
  have hfail : p.state.advance config (fun _ => []) 0 = .backtrack (p.state.continueWith []) := by
    cbv
  have hlast : (p.state.continueWith []).choices.back? = some point := rfl
  have huse : Search.Uses config (fun _ => []) 0 p.state (.reclaim p.state.store 1 root #[]) :=
    .back (Or.inl hfail) (.reclaim hlast)
  obtain ⟨_, hsafe, _⟩ := reclaiming_spares (ofConfig config) goal first () hp
  exact ⟨p, hp, rfl, rfl, huse, (hsafe _ 0 _ huse).2.1⟩

end Engine

end ClauseResolution
