import ClauseResolution.Proofs.Clause.Facts
import ClauseResolution.Proofs.Database.Routing
import ClauseResolution.Proofs.Search.Reclaiming
import ClauseResolution.Proofs.Search.Retrieval
import ClauseResolution.Proofs.Unification.Receiving

/-!
# Asserted facts are retrieved

A fact that is asserted in the dynamic database of an engine is found when its predicate is called
with different variables. They receive the arguments of an instance of the fact, so the one solution
there is has the arguments of the fact as values, under one renaming.
-/

namespace ClauseResolution

/-- Different variables are numbered in their order. -/
theorem Numbering.listed_after_of_nodup {vs : List Var} (h : vs.Nodup) :
    (empty.after vs).listed = vs := by
  induction vs using List.reverseRecOn with
  | nil => rfl
  | append_singleton vs v ih =>
    obtain ⟨hvs, _, hnew⟩ := List.nodup_append.1 h
    have hv : v ∉ vs := fun hmem => hnew v hmem v List.mem_cons_self rfl
    rw [after_append, after_cons]
    change ((empty.after vs).slot v).2.listed = vs ++ [v]
    rw [listed_slot, ih hvs, if_neg hv]

/-- A goal whose arguments are different variables keeps them, with their places as slots. -/
theorem Term.normalize_query {vs : List Var} (hnodup : vs.Nodup)
    (hnamed : ∀ v ∈ vs, v.isAnonymous = false) (functor : String) (count : Nat) :
    ∃ vars n, (compound functor (vs.map .var) count).normalize =
        ⟨.compound functor (vars.map .var) n, vars⟩ ∧
      vars.map Var.name = vs.map Var.name ∧
      vars.map Var.index = (List.range vars.length).map some ∧
      ∀ v ∈ vars, v.isAnonymous = false := by
  let goal : Term := .compound functor (vs.map .var) count
  have hvars : goal.namedVars = vs := by
    rw [namedVars_compound, List.flatMap_map,
      List.flatMap_congr fun v hv => namedVars_named (hnamed v hv)]
    simp
  have hlisted : goal.numbering.listed = vs := by
    rw [numbering, hvars, Numbering.listed_after_of_nodup hnodup]
  have hplaced : ∀ v ∈ vs, goal.numbering.place v = ⟨v.name, some (vs.idxOf v)⟩ := fun v hv => by
    rw [Numbering.place_named (hnamed v hv), hlisted]
  have hslots := Numbering.map_idxOf_listed goal.nodup_numbering
  rw [hlisted] at hslots
  refine ⟨vs.map goal.numbering.place,
    ((vs.map fun v => Term.var (goal.numbering.place v)).flatMap slots).dedup.length,
    ?_, ?_, ?_, ?_⟩
  · rw [normalize_eq, Numbering.vars_eq_map_place goal.nodup_numbering goal.named_numbering,
      hlisted, Numbering.numbered, mapVars_compound, recount_compound]
    simp [Function.comp_def, recount, goal]
  · rw [List.map_map]
    exact List.map_congr_left fun v hv => by rw [Function.comp_apply, hplaced v hv]
  · rw [List.length_map, ← hslots, List.map_map, List.map_map]
    exact List.map_congr_left fun v hv => by rw [Function.comp_apply, hplaced v hv]; rfl
  · intro v hv
    obtain ⟨w, hw, rfl⟩ := List.mem_map.1 hv
    rw [hplaced w hw]
    exact hnamed w hw

namespace Occurrence

variable {left o : Occurrence} {functor : String} {vars : List Var} {n : Nat}

/-- The arguments of a query are variables with slots below their number. -/
theorem exists_var_of_mem_args (hleft : left.term = .compound functor (vars.map .var) n)
    (hslots : vars.map Var.index = (List.range vars.length).map some)
    (hnamed : ∀ v ∈ vars, v.isAnonymous = false) (ho : o ∈ left.args) :
    ∃ v slot, o.term = .var v ∧ v.index = some slot ∧ v.isAnonymous = false ∧
      slot < vars.length := by
  have hmem := List.mem_map_of_mem (f := term) ho
  rw [map_term_args, hleft, Term.args] at hmem
  obtain ⟨v, hv, hterm⟩ := List.mem_map.1 hmem
  have hindex : v.index ∈ (List.range vars.length).map some := hslots ▸ List.mem_map_of_mem hv
  obtain ⟨slot, hslot, hindex⟩ := List.mem_map.1 hindex
  exact ⟨v, slot, hterm.symm, hindex.symm, hnamed v hv, List.mem_range.1 hslot⟩

/-- Their slots are the numbers of their places. -/
theorem map_slot?_args (hleft : left.term = .compound functor (vars.map .var) n)
    (hslots : vars.map Var.index = (List.range vars.length).map some) :
    left.args.map slot? = (List.range vars.length).map some := by
  calc left.args.map slot?
      = (left.args.map term).map Term.slot? := by
        rw [List.map_map]
        rfl
    _ = (vars.map Term.var).map Term.slot? := by rw [map_term_args, hleft, Term.args]
    _ = vars.map Var.index := by
        rw [List.map_map]
        rfl
    _ = (List.range vars.length).map some := hslots

end Occurrence

namespace Substitution

section Query

variable {s : Substitution} {left right : Occurrence} {functor : String} {vars : List Var}
  {us : List Term} {n m bound : Nat}

/-- The variables of a query receive the arguments of a head whose variables come after them. -/
theorem receives_query (hleft : left.term = .compound functor (vars.map .var) n)
    (hright : right.term = .compound functor us m) (hlength : vars.length = us.length)
    (hslots : vars.map Var.index = (List.range vars.length).map some)
    (hnamed : ∀ v ∈ vars, v.isAnonymous = false) (hplain : right.term.isPlain)
    (hfresh : right.term.Fresh vars.length bound) (hs : s.bindings = []) :
    s.Receives (left.args.zip right.args) := by
  have hrights : ∀ o ∈ right.args, o.term ∈ us := fun o ho => by
    have hmem := List.mem_map_of_mem (f := Occurrence.term) ho
    rwa [Occurrence.map_term_args, hright, Term.args] at hmem
  have hpairs : left.args.length = right.args.length := by
    rw [Occurrence.length_args, Occurrence.length_args, hleft, hright, Term.args, Term.args,
      List.length_map, hlength]
  have hfree : ∀ slot, s.valueAt slot = none := fun slot => by rw [valueAt, hs, List.lookup_nil]
  rw [hright, Term.isPlain_compound] at hplain
  rw [hright, Term.fresh_compound] at hfresh
  refine ⟨fun p hp => ?_, fun p hp => hplain _ (hrights _ (List.of_mem_zip hp).2),
    fun _ _ slot _ => hfree slot, fun p hp q hq slot hslot => ?_, ?_⟩
  · obtain ⟨v, slot, hterm, hindex, hv, _⟩ :=
      Occurrence.exists_var_of_mem_args hleft hslots hnamed (List.of_mem_zip hp).1
    exact ⟨v, slot, hterm, hindex, hv, hfree slot⟩
  · obtain ⟨v, i, hterm, hindex, _, hlt⟩ :=
      Occurrence.exists_var_of_mem_args hleft hslots hnamed (List.of_mem_zip hp).1
    intro hsame
    have hi : i = slot := by
      rw [Occurrence.slot?, hterm, Term.slot?, hindex] at hsame
      exact Option.some.inj hsame
    have hge := (hfresh q.2.term (hrights _ (List.of_mem_zip hq).2)).le_slot hslot
    omega
  · have hfirst : (left.args.zip right.args).map (fun p => p.1.slot?) =
        left.args.map Occurrence.slot? := by
      conv_rhs => rw [← List.map_fst_zip hpairs.le, List.map_map]
      rfl
    rw [hfirst, Occurrence.map_slot?_args hleft hslots]
    exact List.nodup_range.map (Option.some_injective _)

/-- A query is unified with a head whose variables come after those of the query. As values the
variables of the query have the arguments of the head. -/
theorem exists_unifyHead_query (hleft : left.term = .compound functor (vars.map .var) n)
    (hright : right.term = .compound functor us m) (hlength : vars.length = us.length)
    (hslots : vars.map Var.index = (List.range vars.length).map some)
    (hnamed : ∀ v ∈ vars, v.isAnonymous = false) (hplain : right.term.isPlain)
    (hfresh : right.term.Fresh vars.length bound) (hs : s.bindings = []) :
    ∃ s' : Substitution, s'.Acyclic ∧
      List.Forall₂ (fun u value => (u.same value : Prop)) us
        (vars.map fun v => (Term.var v).assign s'.solution) ∧
      ∀ (config : Config) (steps : Nat), vars.length ≤ steps →
        s.unifyHead config steps ⟨functor, left.args⟩ right = .unified s' := by
  have hreceives := receives_query hleft hright hlength hslots hnamed hplain hfresh hs
  have hacyclic : s.Acyclic := acyclic_of_bindings_eq_nil hs
  have hlefts : left.args.map Occurrence.term = vars.map .var := by
    rw [Occurrence.map_term_args, hleft, Term.args]
  have hrights : right.args.map Occurrence.term = us := by
    rw [Occurrence.map_term_args, hright, Term.args]
  have hcount : left.args.length = vars.length := by
    rw [← List.length_map (f := Occurrence.term), hlefts, List.length_map]
  have hcount' : right.args.length = us.length := by
    rw [← hrights, List.length_map]
  let s' : Substitution := s.receive (left.args.zip right.args)
  refine ⟨s', hreceives.acyclic hacyclic, ?_, fun config steps hsteps => ?_⟩
  · have hvalues : (vars.map fun v => (Term.var v).assign s'.solution) =
        left.args.map fun o => o.term.assign s'.solution := by
      have hassign := congrArg (List.map (·.assign s'.solution)) hlefts
      rw [List.map_map, List.map_map] at hassign
      exact hassign.symm
    have hpairs : List.Forall₂
        (fun l r : Occurrence => (r.term.same (l.term.assign s'.solution) : Prop))
        left.args right.args := by
      refine List.forall₂_iff_zip.2 ⟨by omega, fun hp => ?_⟩
      rw [hreceives.assign_left hacyclic hp]
      exact hreceives.same_assign_right hacyclic hp
    rw [hvalues, ← hrights, List.forall₂_map_left_iff, List.forall₂_map_right_iff]
    exact hpairs.flip
  · rw [unifyHead, hright]
    dsimp only
    rw [if_pos ⟨rfl, hcount.trans hlength⟩]
    refine hreceives.unifyPairs_eq ?_ _ _ _
    rw [List.length_zip]
    omega

end Query

end Substitution

/-- When a list has one clause for a predicate, the others are for other predicates. -/
theorem exists_append_of_clausesFor {key : String} {clauses : List Clause} {clause : Clause}
    (hmem : clause ∈ clauses) (hkey : clause.key = key)
    (hone : (clausesFor key clauses).length = 1) :
    ∃ before rest, clauses = before ++ clause :: rest ∧ (∀ other ∈ before, other.key ≠ key) ∧
      ∀ other ∈ rest, other.key ≠ key := by
  obtain ⟨before, rest, rfl⟩ := List.append_of_mem hmem
  rw [clausesFor, List.filter_append, List.filter_cons_of_pos (by simp [hkey]), List.length_append,
    List.length_cons] at hone
  have hnone : ∀ {others : List Clause}, (others.filter fun other => other.key == key).length = 0 →
      ∀ other ∈ others, other.key ≠ key := by
    intro others hempty other hother hsame
    exact List.filter_eq_nil_iff.1 (List.length_eq_zero_iff.1 hempty) other hother (by simp [hsame])
  exact ⟨before, rest, rfl, hnone (by omega), hnone (by omega)⟩

/-- A clause that is pushed is among those of its predicate. -/
theorem DynamicClauses.mem_matching_push (d : DynamicClauses) (clause : Clause) :
    clause ∈ (d.push clause).2.matching clause.key := by
  simp [matching, live, push]

namespace Engine

/-- Engines as they are put together. Providers are registered, and are added and changed in
whatever way, except that the dynamic database remains one. -/
inductive Assembled : Engine → Prop
  /-- An engine without clauses. -/
  | ofConfig (config : Config) : Assembled (.ofConfig config)
  /-- A provider is registered for a predicate or a name. -/
  | register {engine : Engine} (h : Assembled engine) (key : String) (provider : Nat) :
      Assembled (engine.register key provider)
  /-- A provider is registered for every predicate. -/
  | registerGlobal {engine : Engine} (h : Assembled engine) (provider : Nat) :
      Assembled (engine.registerGlobal provider)
  /-- Providers are added, or their clauses change. -/
  | change {engine : Engine} (h : Assembled engine) {env : Environment} {d : DynamicClauses}
      (hdynamic : env.providers[databaseNumber]? = some (.dynamic d)) :
      Assembled { engine with environment := env }

variable {engine : Engine}

/-- The dynamic database is there, and it serves every predicate. -/
theorem Assembled.database (h : engine.Assembled) :
    ⟨.every, databaseNumber⟩ ∈ engine.index.registrations ∧
      ∃ d, engine.environment.providers[databaseNumber]? = some (.dynamic d) := by
  induction h with
  | ofConfig config =>
    refine ⟨?_, .empty, rfl⟩
    simp [Engine.ofConfig, ClauseIndex.registerGlobal]
  | register h key provider ih => exact ⟨Array.mem_push_of_mem _ ih.1, ih.2⟩
  | registerGlobal h provider ih => exact ⟨Array.mem_push_of_mem _ ih.1, ih.2⟩
  | change h hdynamic ih => exact ⟨ih.1, _, hdynamic⟩

/-- What the database has for a predicate is tried for it. -/
theorem mem_clauses {key : String} {clause : Clause} {d : DynamicClauses}
    (hserves : ⟨.every, databaseNumber⟩ ∈ engine.index.registrations)
    (hdynamic : engine.environment.providers[databaseNumber]? = some (.dynamic d))
    (hclause : clause ∈ d.matching key) : clause ∈ engine.clauses key := by
  rw [clauses, ClauseIndex.matching_eq]
  refine List.mem_flatMap.2 ⟨_, List.mem_filter.2 ⟨Array.mem_toList_iff.2 hserves, rfl⟩, ?_⟩
  rw [hdynamic]
  exact hclause

/-- A clause that is asserted is tried for its predicate. -/
theorem Assembled.exists_asserted (h : engine.Assembled) {t : Term} {clause : Clause}
    (hclause : Clause.ofTerm engine.environment.texts t = .ok clause) :
    ∃ slot env, engine.environment.assertTerm databaseNumber t = .ok (slot, env) ∧
      clause ∈ Engine.clauses { engine with environment := env } clause.key := by
  obtain ⟨hserves, d, hdynamic⟩ := h.database
  have hdatabase : engine.environment.dynamic databaseNumber = d := by
    rw [Environment.dynamic, hdynamic]
  obtain ⟨hlt, -⟩ := Array.getElem?_eq_some_iff.1 hdynamic
  let written := engine.environment.newText.2
  refine ⟨(d.push clause).1, written.setProvider databaseNumber (.dynamic (d.push clause).2), ?_,
    mem_clauses hserves ?_ (d.mem_matching_push clause)⟩
  · have hpushed : d.assertTerm engine.environment.texts t = .ok (d.push clause) := by
      rw [DynamicClauses.assertTerm, hclause]
      rfl
    rw [Environment.assertTerm, hdatabase]
    dsimp only [Environment.newText]
    rw [hpushed]
    rfl
  · exact Array.getElem?_setIfInBounds_self_of_lt hlt

/-- When a fact is the only clause for its predicate, a call with different variables has one
solution, in which the variables have the arguments of an instance of the fact as values. -/
theorem solve_fact {functor : String} {ts : List Term} {vs : List Var} {varCount : Nat}
    {clause : Clause} (goalCount : Nat) (hclean : ∀ t ∈ ts, t.isClean)
    (hclause : clause.IsClean) (hfact : clause.isFact = true)
    (hhead : clause.head.toTerm =
      (Term.compound functor ts varCount).numbering.numbered (.compound functor ts varCount))
    (hmem : clause ∈ engine.clauses clause.key)
    (hone : (clausesFor (indicator functor ts.length)
      (engine.clauses (indicator functor ts.length))).length = 1)
    (huser : isControl functor ts.length = false) (hlength : vs.length = ts.length)
    (hnodup : vs.Nodup) (hnamed : ∀ v ∈ vs, v.isAnonymous = false)
    (hdepth : 0 < engine.config.maxDepth) (hroom : engine.config.maxInferences ≠ some 0) :
    let goal : Term := .compound functor (vs.map .var) goalCount
    ∃ values, Term.SameUpToRenaming ts values ∧
      ∀ {α : Type} (listener : Listener α) (value : α) (steps : Nat), ts.length + 2 ≤ steps →
        ∃ solution : Solution, solution.vars.map Var.name = vs.map Var.name ∧
          solution.vars.map (fun v => solution.reify (.var v)) = values.map some ∧
          engine.solve steps goal listener value =
            .once (listener solution { engine.environment with interrupted := false } value) := by
  intro goal
  obtain ⟨vars, n, hnormal, hnames, hslots, hvarsNamed⟩ :=
    Term.normalize_query hnodup hnamed functor goalCount
  have hvars : vars.length = ts.length := by
    rw [← List.length_map (f := Var.name), hnames, List.length_map, hlength]
  have hquery : (Occurrence.whole 0 goal.normalize.term).term =
      .compound functor (vars.map .var) n := congrArg Normalized.term hnormal
  have hqueryVars : goal.normalize.vars = vars := congrArg Normalized.vars hnormal
  let call : Call := ⟨functor, (Occurrence.whole 0 goal.normalize.term).args⟩
  have hcall : Call.ofOccurrence (.whole 0 goal.normalize.term) = .ok call := by
    rw [Call.ofOccurrence, hquery]
  have hargs : call.args.length = ts.length := by
    rw [Occurrence.length_args, hquery, Term.args, List.length_map, hvars]
  -- The head of the instance, and what the variables of the call receive from it.
  obtain ⟨us, m, hinstance, hrenaming⟩ :=
    hclause.isBuilt.exists_instance hclean hhead ⟨0, vars.length⟩
  have hus : us.length = ts.length := by
    obtain ⟨f, _, hsame⟩ := hrenaming
    exact hsame.length_eq.symm
  obtain ⟨s', hacyclic, hvalues, hunify⟩ := Substitution.exists_unifyHead_query
    (s := Substitution.allocate ⟨[], vars.length⟩ clause.varCount) hquery hinstance
    (hvars.trans hus.symm) hslots hvarsNamed (hclause.numbered.rename_head _).1
    (hclause.isBuilt.placed.fresh_head _) rfl
  -- The other clauses that are tried are for other predicates.
  have hkey : clause.key = indicator functor ts.length := by
    rw [Clause.key_of_term_rename_head hinstance, hus]
  obtain ⟨before, rest, hclauses, hbefore, hrest⟩ :=
    exists_append_of_clausesFor (hkey ▸ hmem) hkey hone
  have hcallKey : call.indicator = indicator functor ts.length := congrArg (indicator functor) hargs
  refine ⟨_, hrenaming.trans_same hvalues, fun {α} listener value steps hsteps => ?_⟩
  obtain ⟨steps, rfl⟩ : ∃ k, steps = k + 2 := ⟨steps - 2, by omega⟩
  obtain ⟨solution, hsolutionVars, hstore, hsolve⟩ := solve_single listener value hcall
    (hargs ▸ huser) hdepth hroom (hcallKey ▸ hclauses) (hcallKey ▸ hbefore) (hcallKey ▸ hrest) hfact
    (hqueryVars ▸ hunify engine.config (steps + 1) (by omega))
  rw [hqueryVars] at hsolutionVars
  refine ⟨solution, by rw [hsolutionVars, hnames], ?_, hsolve⟩
  rw [hsolutionVars, List.map_map]
  refine List.map_congr_left fun v _ => ?_
  rw [Solution.reify, Store.reify_eq_solution (hstore ▸ hacyclic), hstore]
  rfl

/-- A fact that is asserted is retrieved. When it is the only clause for its predicate that the
engine then has, a call with different variables delivers one solution, whatever the listener,
and in it the variables have the arguments of the fact as values, up to one renaming. -/
theorem asserted_fact_retrieved {functor : String} {ts : List Term} {vs : List Var}
    {varCount goalCount : Nat} (hengine : engine.Assembled)
    (huser : isControl functor ts.length = false)
    (hneck : ¬ (functor = Clause.neck ∧ ts.length = 2)) (hclean : ∀ t ∈ ts, t.isClean)
    (hlength : vs.length = ts.length) (hnodup : vs.Nodup) (hnamed : ∀ v ∈ vs, v.isAnonymous = false)
    (hdepth : 0 < engine.config.maxDepth) (hroom : engine.config.maxInferences ≠ some 0) :
    ∃ slot env, engine.environment.assertTerm databaseNumber (.compound functor ts varCount) =
        .ok (slot, env) ∧
      let after : Engine := { engine with environment := env }
      let goal : Term := .compound functor (vs.map .var) goalCount
      (clausesFor (indicator functor ts.length)
        (after.clauses (indicator functor ts.length))).length = 1 →
      ∃ values, Term.SameUpToRenaming ts values ∧
        ∀ {α : Type} (listener : Listener α) (value : α) (steps : Nat), ts.length + 2 ≤ steps →
          ∃ solution, after.delivered steps goal listener value = [solution] ∧
            solution.vars.map Var.name = vs.map Var.name ∧
            solution.vars.map (fun v => solution.reify (.var v)) = values.map some ∧
            ∃ aborted, (after.solve steps goal listener value).ending =
              .finished ⟨1, 1, aborted⟩ := by
  obtain ⟨clause, hclause, hisClean, hfact, hhead⟩ :=
    Clause.exists_fact engine.environment.texts varCount hneck hclean
  obtain ⟨slot, env, hassert, hmem⟩ := hengine.exists_asserted hclause
  refine ⟨slot, env, hassert, ?_⟩
  intro after goal hone
  obtain ⟨values, hrenaming, hsolve⟩ := after.solve_fact goalCount hclean hisClean hfact hhead hmem
    hone huser hlength hnodup hnamed hdepth hroom
  refine ⟨values, hrenaming, fun listener value steps hsteps => ?_⟩
  obtain ⟨solution, hnames, hvalues, hrecorded⟩ :=
    hsolve listener.recording ([], value) steps hsteps
  obtain ⟨_, _, _, hended⟩ := hsolve listener value steps hsteps
  refine ⟨solution, ?_, hnames, hvalues, _, by rw [hended]; rfl⟩
  rw [delivered, hrecorded]
  rfl

/-- The fact `p(X, f(X, Y), X)`, in which the last variable is another one with the name of the
first, is asserted with room for one inference, and beside a clause for `q/1` that is offered
whatever is called. -/
theorem asserted_fact_retrieved_shared :
    let ts : List Term := [.var ⟨"X", none⟩, .apply "f" [.var ⟨"X", none⟩, .var ⟨"Y", none⟩],
      .var ⟨"X", some 3⟩]
    let goal : Term := .compound "p" ([⟨"A", none⟩, ⟨"B", none⟩, ⟨"A", some 0⟩].map .var) 3
    let offered : Clause := ⟨⟨"q", [.atom "a"], 0⟩, Clause.truth, [], 0⟩
    let engine : Engine := registerGlobal
      { Engine.ofConfig { maxDepth := 1, maxInferences := some 1 } with
        environment := (Environment.initial.addProvider (.external fun _ => [offered])).2 } 2
    ∃ slot env values, engine.environment.assertTerm databaseNumber (.apply "p" ts) =
        .ok (slot, env) ∧ Term.SameUpToRenaming ts values ∧
      ∃ solution, Engine.delivered { engine with environment := env } 5 goal first () = [solution] ∧
        solution.vars.map (fun v => solution.reify (.var v)) = values.map some := by
  intro ts goal offered engine
  have hengine : engine.Assembled := .registerGlobal (.change (.ofConfig _) rfl) 2
  obtain ⟨slot, env, hassert, hretrieved⟩ := @asserted_fact_retrieved engine "p" ts
    [⟨"A", none⟩, ⟨"B", none⟩, ⟨"A", some 0⟩] 0 3 hengine (by decide) (by decide) (by decide) rfl
    (by decide) (by decide) (by decide) (by decide)
  let x : Term := .var ⟨"X", some 0⟩
  let y : Term := .var ⟨"Y", some 1⟩
  let asserted : Clause :=
    ⟨⟨"p", [x, .compound "f" [x, y] 2, .var ⟨"X", some 2⟩], 3⟩, Clause.truth, ["X", "Y", "X"], 0⟩
  have henv : env = engine.environment.newText.2.setProvider databaseNumber
      (.dynamic ⟨#[some asserted]⟩) := by
    have hok : engine.environment.assertTerm databaseNumber (.apply "p" ts) = .ok
      (0, engine.environment.newText.2.setProvider databaseNumber
        (.dynamic ⟨#[some asserted]⟩)) := by with_unfolding_all rfl
    exact congrArg Prod.snd (Except.ok.inj (hassert.symm.trans hok))
  have hpositions : engine.index.positionsFor (indicator "p" 3) = [0, 1, 2] := by cbv
  have hone : (clausesFor (indicator "p" 3) (engine.index.matching env.providers
      (indicator "p" 3))).length = 1 := by
    rw [ClauseIndex.matching, hpositions, henv]
    with_unfolding_all rfl
  obtain ⟨values, hrenaming, hsolution⟩ := hretrieved hone
  obtain ⟨solution, hdelivered, _, hvalues, _⟩ := hsolution first () 5 (by decide)
  exact ⟨slot, env, values, hassert, hrenaming, solution, hdelivered, hvalues⟩

end Engine

end ClauseResolution
