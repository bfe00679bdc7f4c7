import ClauseResolution.Engine.Basic
import ClauseResolution.Proofs.Term.Words

/-!
# Routing of predicates to registrations

The index routes a predicate by lists of positions, which are put together, sorted and rid of
repetitions. What comes out is the registrations that serve the predicate, in their order and each
of them once, so the candidates for a predicate are those of one registration after another.

A key is a name, a slash and a suffix without slashes, so both parts can be read off it, whatever
the name is. No two predicates share a key, and none has the key of all arities of a name. Whatever
was registered, a predicate therefore gets the clauses of exactly those providers that were
registered for every predicate, for its name and arity, or for its name.
-/

namespace ClauseResolution

/-- In an ascending list equal entries stand next to each other, so none is left twice. -/
theorem exists_eraseReps_loop {a : Nat} {as : List Nat} (h : (a :: as).Pairwise (· ≤ ·))
    (acc : List Nat) : ∃ l, List.eraseRepsBy.loop (· == ·) a as acc = acc.reverse ++ l ∧
      l.Pairwise (· < ·) ∧ ∀ i, i ∈ l ↔ i ∈ a :: as := by
  induction as generalizing a acc with
  | nil => exact ⟨[a], by simp [List.eraseRepsBy.loop], by simp, by simp⟩
  | cons b as ih =>
    obtain ⟨hle, htail⟩ := List.pairwise_cons.1 h
    rw [List.eraseRepsBy.loop]
    by_cases hab : a = b
    · subst hab
      obtain ⟨l, hloop, hlt, hmem⟩ := ih htail acc
      rw [beq_self_eq_true]
      exact ⟨l, hloop, hlt, fun i => by rw [hmem]; simp⟩
    · obtain ⟨l, hloop, hlt, hmem⟩ := ih htail (a :: acc)
      rw [beq_eq_false_iff_ne.2 hab]
      refine ⟨a :: l, by rw [hloop]; simp, List.pairwise_cons.2 ⟨fun i hi => ?_, hlt⟩,
        fun i => by rw [List.mem_cons, hmem, List.mem_cons (a := i) (b := a)]⟩
      have hi := (hmem i).1 hi
      have hai := hle i hi
      have hbi : b ≤ i := by
        rcases List.mem_cons.1 hi with rfl | hi
        · exact Nat.le_refl _
        · exact (List.pairwise_cons.1 htail).1 i hi
      have hab' := hle b List.mem_cons_self
      omega

/-- Sorted and without repetitions, a list has the same entries, each of them once. -/
theorem eraseReps_mergeSort (l : List Nat) :
    (l.mergeSort (· ≤ ·)).eraseReps.Pairwise (· < ·) ∧
      ∀ i, i ∈ (l.mergeSort (· ≤ ·)).eraseReps ↔ i ∈ l := by
  have hsorted : (l.mergeSort (· ≤ ·)).Pairwise (· ≤ ·) := List.pairwise_mergeSort' (· ≤ ·) l
  have hmem : ∀ i, i ∈ l.mergeSort (· ≤ ·) ↔ i ∈ l := fun i => List.mem_mergeSort
  cases hsort : l.mergeSort (· ≤ ·) with
  | nil =>
    rw [hsort] at hmem
    exact ⟨.nil, hmem⟩
  | cons a as =>
    rw [hsort] at hsorted hmem
    obtain ⟨l', hloop, hlt, hmem'⟩ := exists_eraseReps_loop hsorted []
    rw [List.eraseReps, List.eraseRepsBy, hloop, List.reverse_nil, List.nil_append]
    exact ⟨hlt, fun i => (hmem' i).trans (hmem i)⟩

/-- The positions of some entries lead to these entries, in the order of the list. -/
theorem flatMap_filter_range {α β : Type} (l : List α) (p : α → Bool) (f : α → List β) :
    ((List.range l.length).filter fun i => l[i]?.any p).flatMap
      (fun i => (l[i]?.map f).getD []) = (l.filter p).flatMap f := by
  induction l using List.reverseRecOn with
  | nil => rfl
  | append_singleton l a ih =>
    have hold : ∀ i < l.length, (l ++ [a])[i]? = l[i]? := fun i hi => List.getElem?_append_left hi
    have hfilter : (List.range l.length).filter (fun i => ((l ++ [a])[i]?).any p) =
        (List.range l.length).filter fun i => l[i]?.any p :=
      List.filter_congr fun i hi => by rw [hold i (List.mem_range.1 hi)]
    have hflatMap : ((List.range l.length).filter fun i => l[i]?.any p).flatMap
        (fun i => (((l ++ [a])[i]?).map f).getD []) = (l.filter p).flatMap f := by
      rw [← ih]
      exact List.flatMap_congr fun i hi => by
        rw [hold i (List.mem_range.1 (List.mem_of_mem_filter hi))]
    rw [List.length_append, List.length_singleton, List.range_succ, List.filter_append, hfilter,
      List.flatMap_append, hflatMap, List.filter_append, List.flatMap_append]
    congr 1
    by_cases h : p a <;> simp [h]

/-- A position has a scope when the registration there has it. -/
theorem mem_positionsWith {registrations : Array Registration} {scope : Scope} {position : Nat} :
    position ∈ positionsWith registrations scope ↔
      ∃ registration, registrations[position]? = some registration ∧
        registration.scope = scope := by
  rw [positionsWith, List.mem_filter, List.mem_range, Option.any_eq_true]
  simp only [decide_eq_true_eq]
  constructor
  · rintro ⟨_, hregistration⟩
    exact hregistration
  · rintro ⟨registration, hregistration, hscope⟩
    exact ⟨(Array.getElem?_eq_some_iff.1 hregistration).1, registration, hregistration, hscope⟩

namespace ClauseIndex

variable (index : ClauseIndex) (key : String)

/-- On the three lists together stand the registrations that serve the predicate. -/
theorem mem_positionsFor {position : Nat} : position ∈ index.positionsFor key ↔
    ∃ registration, index.registrations[position]? = some registration ∧
      registration.scope.serves key := by
  have hvariadic : position ∈ (indicatorName? key).elim []
      (fun name => index.byKey.get (variadicIndicator name)) ↔
        ∃ name, indicatorName? key = some name ∧
          position ∈ positionsWith index.registrations (.key (variadicIndicator name)) := by
    cases indicatorName? key with
    | none => simp
    | some name => simp [index.byKey_get]
  rw [positionsFor, (eraseReps_mergeSort _).2, List.mem_append, List.mem_append, hvariadic,
    index.global_eq, index.byKey_get]
  simp only [mem_positionsWith]
  constructor
  · rintro ((⟨r, hr, hscope⟩ | ⟨r, hr, hscope⟩) | ⟨name, hname, r, hr, hscope⟩)
    · exact ⟨r, hr, by rw [hscope, Scope.serves]⟩
    · exact ⟨r, hr, by simp [hscope, Scope.serves]⟩
    · exact ⟨r, hr, by simp [hscope, Scope.serves, hname]⟩
  · rintro ⟨r, hr, hserves⟩
    cases hscope : r.scope with
    | every => exact Or.inl (Or.inl ⟨r, hr, hscope⟩)
    | key own =>
      rw [hscope, Scope.serves, Bool.or_eq_true, beq_iff_eq] at hserves
      rcases hserves with rfl | hname
      · exact Or.inl (Or.inr ⟨r, hr, hscope⟩)
      · cases hindicator : indicatorName? key with
        | none => simp [hindicator] at hname
        | some name =>
          rw [hindicator] at hname
          exact Or.inr ⟨name, rfl, r, hr, by rw [hscope, eq_of_beq hname]⟩

/-- A predicate is routed to the registrations that serve it, in order, each of them once. -/
theorem positionsFor_eq : index.positionsFor key =
    (List.range index.registrations.size).filter fun position =>
      index.registrations[position]?.any fun registration => registration.scope.serves key := by
  have hascending : (index.positionsFor key).Pairwise (· < ·) := (eraseReps_mergeSort _).1
  refine hascending.eq_of_mem_iff (List.pairwise_lt_range.filter _) fun position => ?_
  rw [mem_positionsFor, List.mem_filter, List.mem_range, Option.any_eq_true]
  constructor
  · rintro ⟨r, hr, hserves⟩
    exact ⟨(Array.getElem?_eq_some_iff.1 hr).1, r, hr, hserves⟩
  · rintro ⟨_, hserves⟩
    exact hserves

/-- The candidates for a predicate are those of the registrations that serve it, one after the
other. -/
theorem matching_eq (providers : Array Provider) : index.matching providers key =
    (index.registrations.toList.filter (·.scope.serves key)).flatMap fun registration =>
      (providers[registration.provider]?.map (·.matching key)).getD [] := by
  rw [← flatMap_filter_range, matching, positionsFor_eq]
  simp only [Array.length_toList, Array.getElem?_toList]
  refine List.flatMap_congr fun position _ => ?_
  rw [offered]
  cases index.registrations[position]? <;> rfl

end ClauseIndex

section Keys

variable {name name' suffix suffix' : String}

/-- The name is what stands in front of the last slash. -/
theorem indicatorName?_append (hsuffix : '/' ∉ suffix.toList) :
    indicatorName? (name ++ "/" ++ suffix) = some name := by
  have hslash : "/".toList = ['/'] := rfl
  have hreverse : ∀ c ∈ suffix.toList.reverse, (c != '/') = true := fun c hc =>
    bne_iff_ne.2 fun heq => hsuffix (heq ▸ List.mem_reverse.1 hc)
  rw [indicatorName?, String.toList_append, String.toList_append, List.reverse_append,
    List.reverse_append, List.dropWhile_append_of_pos hreverse, hslash]
  simp

/-- Name and suffix can be read off a key. -/
theorem key_injective (hsuffix : '/' ∉ suffix.toList) (hsuffix' : '/' ∉ suffix'.toList)
    (h : name ++ "/" ++ suffix = name' ++ "/" ++ suffix') : name = name' ∧ suffix = suffix' :=
  append_mark_inj (c := '/') rfl hsuffix hsuffix' h

/-- The digits of a number contain no slash. -/
theorem slash_notMem_toString (n : Nat) : '/' ∉ (toString n).toList := fun hc =>
  absurd (isDigit_of_mem_toString hc) (by decide)

/-- The star that stands for every arity is no slash. -/
theorem slash_notMem_star : '/' ∉ "*".toList := by decide

/-- The key for all arities of a name is the name, a slash and a star. -/
theorem variadicIndicator_eq (name : String) : variadicIndicator name = name ++ "/" ++ "*" := by
  rw [variadicIndicator, String.append_assoc]
  rfl

/-- The name is read back from the indicator of a predicate. -/
theorem indicatorName?_indicator (name : String) (arity : Nat) :
    indicatorName? (indicator name arity) = some name :=
  indicatorName?_append (slash_notMem_toString arity)

/-- No two predicates share an indicator. -/
theorem indicator_inj {arity arity' : Nat} :
    indicator name arity = indicator name' arity' ↔ name = name' ∧ arity = arity' := by
  constructor
  · intro h
    obtain ⟨hname, harity⟩ :=
      key_injective (slash_notMem_toString arity) (slash_notMem_toString arity') h
    exact ⟨hname, Nat.repr_inj.1 harity⟩
  · rintro ⟨rfl, rfl⟩
    rfl

/-- No two names share the indicator of all their arities. -/
theorem variadicIndicator_inj :
    variadicIndicator name = variadicIndicator name' ↔ name = name' := by
  constructor
  · intro h
    rw [variadicIndicator_eq, variadicIndicator_eq] at h
    exact (key_injective slash_notMem_star slash_notMem_star h).1
  · rintro rfl
    rfl

/-- The indicator of a predicate is none of all arities of a name. -/
theorem indicator_ne_variadicIndicator (arity : Nat) :
    indicator name arity ≠ variadicIndicator name' := by
  intro h
  rw [variadicIndicator_eq] at h
  have hstar := (key_injective (slash_notMem_toString arity) slash_notMem_star h).2
  have hdigit : '*'.isDigit := isDigit_of_mem_toString (n := arity) (by rw [hstar]; decide)
  exact absurd hdigit (by decide)

end Keys

/-- The predicates a provider is registered for. -/
inductive Coverage
  /-- One name with one arity. -/
  | predicate (name : String) (arity : Nat)
  /-- One name with every arity. -/
  | variadic (name : String)
  /-- Every predicate. -/
  | every

namespace Coverage

/-- The scope under which the provider is registered. -/
def scope : Coverage → Scope
  | predicate name arity => .key (indicator name arity)
  | variadic name => .key (variadicIndicator name)
  | every => .every

/-- A name with an arity is among the predicates. -/
def covers (name : String) (arity : Nat) : Coverage → Bool
  | predicate own n => own = name ∧ n = arity
  | variadic own => own = name
  | every => true

/-- A registration serves the predicates it is made for. -/
theorem serves_scope (coverage : Coverage) (name : String) (arity : Nat) :
    coverage.scope.serves (indicator name arity) = coverage.covers name arity := by
  cases coverage with
  | predicate own n =>
    have hvariadic : indicator own n ≠ variadicIndicator name := indicator_ne_variadicIndicator n
    rw [Bool.eq_iff_iff, scope, Scope.serves, indicatorName?_indicator]
    simp [covers, hvariadic, indicator_inj]
  | variadic own =>
    have hpredicate : variadicIndicator own ≠ indicator name arity :=
      (indicator_ne_variadicIndicator arity).symm
    rw [Bool.eq_iff_iff, scope, Scope.serves, indicatorName?_indicator]
    simp [covers, hpredicate, variadicIndicator_inj]
  | every => rfl

end Coverage

/-- A provider that is to be registered. -/
structure Request where
  /-- The predicates it is registered for. -/
  coverage : Coverage
  /-- The number of the provider. -/
  provider : Nat

namespace ClauseIndex

/-- Registers a provider as requested. -/
def accept (index : ClauseIndex) (request : Request) : ClauseIndex :=
  match request.coverage with
  | .predicate name arity => index.register (indicator name arity) request.provider
  | .variadic name => index.register (variadicIndicator name) request.provider
  | .every => index.registerGlobal request.provider

/-- The index after some requests. -/
def ofRequests (requests : List Request) : ClauseIndex := requests.foldl accept empty

/-- A request is registered behind the others. -/
theorem registrations_accept (index : ClauseIndex) (request : Request) :
    (index.accept request).registrations =
      index.registrations.push ⟨request.coverage.scope, request.provider⟩ := by
  rw [accept]
  cases request.coverage <;> rfl

/-- The requests are registered in their order. -/
theorem registrations_ofRequests (requests : List Request) :
    (ofRequests requests).registrations.toList =
      requests.map fun request => ⟨request.coverage.scope, request.provider⟩ := by
  induction requests using List.reverseRecOn with
  | nil => rfl
  | append_singleton requests request ih =>
    rw [ofRequests, List.foldl_append, ← ofRequests, List.foldl_cons, List.foldl_nil,
      registrations_accept, Array.toList_push, ih, List.map_append, List.map_singleton]

/-- A predicate is served by the providers that were registered for it. Whatever was registered
under whatever names, the candidates for a predicate are the answers of the providers that were
registered for every predicate, for this name and arity, or for every arity of this name, one after
the other in the order of registration and once for each registration. -/
theorem matching_ofRequests (requests : List Request) (providers : Array Provider) (name : String)
    (arity : Nat) : (ofRequests requests).matching providers (indicator name arity) =
      (requests.filter fun request => request.coverage.covers name arity).flatMap fun request =>
        (providers[request.provider]?.map (·.matching (indicator name arity))).getD [] := by
  rw [matching_eq, registrations_ofRequests, List.filter_map, List.flatMap_map]
  congr 1
  exact List.filter_congr fun request _ => request.coverage.serves_scope name arity

end ClauseIndex

/-- As long as nothing else is registered, the clauses of the theory are tried and then those of
the database. -/
theorem Engine.matching_ofConfig (config : Config) (providers : Array Provider) (key : String) :
    (ofConfig config).index.matching providers key =
      (providers[theoryNumber]?.map (·.matching key)).getD [] ++
        (providers[databaseNumber]?.map (·.matching key)).getD [] := by
  rw [ClauseIndex.matching_eq]
  simp [ofConfig, ClauseIndex.registerGlobal, ClauseIndex.empty, Scope.serves]

/-- A new engine has no clauses. -/
theorem Engine.clauses_ofConfig (config : Config) (key : String) :
    (ofConfig config).clauses key = [] := by
  rw [clauses, matching_ofConfig]
  rfl

/-- An engine with a theory that gives some clauses for every predicate. -/
def Engine.offering (config : Config) (clauses : List Clause) : Engine :=
  { ofConfig config with environment := ⟨#[.external fun _ => clauses], false, 2⟩ }

/-- Every predicate has the clauses of the theory. -/
theorem Engine.clauses_offering (config : Config) (clauses : List Clause) (key : String) :
    (offering config clauses).clauses key = clauses :=
  (matching_ofConfig config _ key).trans (List.append_nil clauses)

end ClauseResolution
