import ClauseResolution.Database.Theory
import ClauseResolution.Proofs.Database.Journal
import Mathlib.Algebra.GroupWithZero.Nat
import Mathlib.Data.List.Induction
import Mathlib.Data.List.Nodup

/-!
# A theory is an ordered log

A theory has the clauses that were added and not removed since, each predicate those with its
indicator, in the order in which they were added. Its groups are these clauses sorted into groups,
where the groups stand in the order of their first clause: each operation keeps it so.
-/

namespace ClauseResolution

section Keys

variable {κ : Type} [DecidableEq κ]

/-- At the end of a list an entry counts if it is a new one. -/
theorem eraseDups_append_singleton (l : List κ) (a : κ) :
    (l ++ [a]).eraseDups = l.eraseDups ++ if a ∈ l then [] else [a] := by
  rw [List.eraseDups_append]
  by_cases h : a ∈ l <;> simp [List.removeAll, h, List.eraseDups_cons]

/-- Without duplicates no entry is left twice. -/
theorem nodup_eraseDups (l : List κ) : l.eraseDups.Nodup := by
  induction l using List.reverseRecOn with
  | nil => exact List.nodup_nil
  | append_singleton l a ih =>
    rw [eraseDups_append_singleton]
    split
    · rwa [List.append_nil]
    · next h =>
      rw [← List.concat_eq_append]
      exact ih.concat fun hmem => h (List.mem_eraseDups.1 hmem)

/-- Leaving entries out does not change the order of the others. -/
theorem eraseDups_filter (p : κ → Bool) (l : List κ) :
    (l.filter p).eraseDups = l.eraseDups.filter p := by
  induction l using List.reverseRecOn with
  | nil => rfl
  | append_singleton l a ih =>
    rw [List.filter_append, eraseDups_append_singleton, List.filter_append, ← ih]
    cases hp : p a with
    | false => by_cases ha : a ∈ l <;> simp [hp, ha]
    | true => by_cases ha : a ∈ l <;> simp [hp, ha, eraseDups_append_singleton]

end Keys

namespace Groups

variable {α : Type} (key : α → String)

/-- Values in groups, in the order of the first value of each group. -/
def grouped (values : List α) : Groups α :=
  ⟨(values.map key).eraseDups.map fun k => (k, values.filter fun value => key value == k)⟩

/-- The keys of the groups are those of the values, each of them where it first occurs. -/
theorem keys_grouped (values : List α) :
    (grouped key values).keys = (values.map key).eraseDups := by
  rw [keys, grouped, List.map_map]
  exact List.map_id _

/-- Groups that are given by their keys are looked up by these keys. -/
theorem get_map (f : String → List α) (ks : List String) (k : String) :
    get ⟨ks.map fun k' => (k', f k')⟩ k = if k ∈ ks then f k else [] := by
  induction ks with
  | nil => rfl
  | cons first ks ih =>
    rw [List.map_cons, get_cons, ih]
    by_cases h : k = first
    · subst h
      simp
    · simp [h]

/-- A group has the values with its key, in the order in which they were added. -/
theorem get_grouped (values : List α) (k : String) :
    (grouped key values).get k = values.filter fun value => key value == k := by
  rw [grouped, get_map]
  split
  · rfl
  · next h =>
    refine (List.filter_eq_nil_iff.2 fun value hvalue hkey => h ?_).symm
    exact List.mem_eraseDups.2 (List.mem_map.2 ⟨value, hvalue, eq_of_beq hkey⟩)

/-- A value is appended to the group of its key, or it is a new group behind the others. -/
theorem addTo_map (f : String → List α) {ks : List String} (hnodup : ks.Nodup) (k : String)
    (value : α) : addTo k value (ks.map fun k' => (k', f k')) =
      ks.map (fun k' => (k', f k' ++ if k' = k then [value] else [])) ++
        if k ∈ ks then [] else [(k, [value])] := by
  induction ks with
  | nil => rfl
  | cons first ks ih =>
    obtain ⟨hfirst, hnodup⟩ := List.nodup_cons.1 hnodup
    rw [List.map_cons, addTo]
    by_cases h : first = k
    · subst h
      have hothers : ks.map (fun k' => (k', f k' ++ if k' = first then [value] else [])) =
          ks.map fun k' => (k', f k') :=
        List.map_congr_left fun k' hk' => by
          have hne : k' ≠ first := fun heq => hfirst (heq ▸ hk')
          rw [if_neg hne, List.append_nil]
      simp [hothers]
    · rw [if_neg h, ih hnodup]
      simp [h, Ne.symm h]

/-- Adding a value sorts it in behind the others. -/
theorem grouped_append_singleton (values : List α) (value : α) :
    grouped key (values ++ [value]) = (grouped key values).add (key value) value := by
  have hnone : key value ∉ values.map key →
      values.filter (fun other => key other == key value) = [] := fun hnew =>
    List.filter_eq_nil_iff.2 fun other hother heq =>
      hnew (List.mem_map.2 ⟨other, hother, eq_of_beq heq⟩)
  rw [grouped, grouped, add, addTo_map _ (nodup_eraseDups _), List.map_append, List.map_singleton,
    eraseDups_append_singleton, List.map_append]
  congr 2
  · refine List.map_congr_left fun k _ => ?_
    rw [List.filter_append]
    by_cases h : key value = k
    · simp [h]
    · simp [h, Ne.symm h]
  · by_cases hold : key value ∈ values.map key
    · rw [if_pos hold, if_pos (List.mem_eraseDups.2 hold), List.map_nil]
    · rw [if_neg hold, if_neg fun hmem => hold (List.mem_eraseDups.1 hmem)]
      simp [hnone hold]

/-- Removing a group leaves the values of the other groups. -/
theorem remove_grouped (values : List α) (k : String) :
    (grouped key values).remove k = grouped key (values.filter fun value => key value != k) := by
  have hkeys : (values.filter fun value => key value != k).map key =
      (values.map key).filter fun k' => k' != k := by
    rw [List.filter_map]
    rfl
  rw [remove, grouped, grouped, hkeys, eraseDups_filter, List.filter_map]
  congr 1
  refine List.map_congr_left fun k' hk' => ?_
  have hne : k' ≠ k := bne_iff_ne.1 (List.mem_filter.1 hk').2
  rw [List.filter_filter]
  congr 1
  refine List.filter_congr fun value _ => ?_
  by_cases h : key value = k' <;> simp [h, hne]

/-- Adding a value makes the groups larger by one. -/
theorem size_add (groups : Groups α) (k : String) (value : α) :
    (groups.add k value).size = groups.size + 1 := by
  obtain ⟨entries⟩ := groups
  simp only [add, size]
  induction entries with
  | nil => rfl
  | cons entry entries ih =>
    rw [addTo]
    split <;> simp_all <;> omega

/-- The size counts the values under each key. -/
theorem size_eq_sum (values : List α) : (grouped key values).size =
    ((grouped key values).keys.map fun k => ((grouped key values).get k).length).sum := by
  have hget : ∀ k, (grouped key values).get k = values.filter fun value => key value == k :=
    get_grouped key values
  simp only [hget, keys_grouped]
  rw [size, grouped, List.sum_eq_foldr, List.foldr_map, List.foldr_map]

/-- The groups have as many entries as values were added. -/
theorem size_grouped (values : List α) : (grouped key values).size = values.length := by
  induction values using List.reverseRecOn with
  | nil => rfl
  | append_singleton values value ih =>
    rw [grouped_append_singleton, size_add, ih, List.length_append, List.length_singleton]

end Groups

namespace Theory

/-- What can be done with a theory. -/
inductive Operation
  /-- A clause is added. -/
  | add (clause : Clause)
  /-- A term is added, if it denotes a clause, with the number of its text. -/
  | addTerm (text : Nat) (t : Term)
  /-- The clauses of a predicate are removed. -/
  | abolish (key : String)
  /-- All clauses are removed. -/
  | clear

namespace Operation

/-- The clause that is added, if one is. -/
def added? : Operation → Option Clause
  | add clause => some clause
  | addTerm text t => (Clause.ofTerm text t).toOption
  | _ => none

/-- A clause that was added before is removed. -/
def removes : Operation → Clause → Bool
  | abolish key, clause => clause.key == key
  | clear, _ => true
  | _, _ => false

end Operation

/-- The theory after an operation. A term that denotes no clause is refused. -/
def perform (theory : Theory) : Operation → Theory
  | .add clause => theory.add clause
  | .addTerm text t =>
    match theory.addTerm text t with
    | .ok theory' => theory'
    | .error _ => theory
  | .abolish key => (theory.abolish key).2
  | .clear => theory.clear

/-- The theory after some operations, from the empty one on. -/
def after (operations : List Operation) : Theory := operations.foldl perform empty

/-- The clauses that were added and not removed since, in the order in which they were added. -/
def log (operations : List Operation) : List Clause :=
  standing Operation.added? Operation.removes operations

/-- An operation keeps a theory sorted: it takes out what is removed and sorts in what is added. -/
theorem groups_perform {theory : Theory} {clauses : List Clause}
    (h : theory.groups = .grouped Clause.key clauses) (operation : Operation) :
    (theory.perform operation).groups = .grouped Clause.key
      (clauses.filter (fun clause => !operation.removes clause) ++ operation.added?.toList) := by
  have hkept : clauses.filter (fun _ => !false) = clauses := List.filter_true clauses
  have hadd : ∀ clause, (theory.add clause).groups = .grouped Clause.key (clauses ++ [clause]) :=
    fun clause => by rw [add, h, Groups.grouped_append_singleton]
  cases operation with
  | add clause =>
    simp only [Operation.removes, Operation.added?, hkept]
    exact hadd clause
  | addTerm text t =>
    simp only [Operation.removes, Operation.added?, hkept, perform, addTerm]
    cases Clause.ofTerm text t with
    | ok clause => exact hadd clause
    | error e => rw [Except.toOption, Option.toList_none, List.append_nil]; exact h
  | abolish key =>
    simp only [Operation.removes, Operation.added?, perform, abolish, Option.toList_none,
      List.append_nil, h]
    exact Groups.remove_grouped Clause.key clauses key
  | clear =>
    simp only [Operation.removes, Operation.added?, Bool.not_true, List.filter_false,
      Option.toList_none, List.append_nil]
    rfl

/-- After any operations the theory is its log, sorted. -/
theorem groups_after (operations : List Operation) :
    (after operations).groups = .grouped Clause.key (log operations) := by
  induction operations using List.reverseRecOn with
  | nil => rfl
  | append_singleton operations operation ih =>
    rw [after, List.foldl_append, ← after, log, standing_append_singleton]
    exact groups_perform ih operation

/-- Removing a predicate takes its clauses out of the log. -/
theorem log_append_abolish (operations : List Operation) (key : String) :
    log (operations ++ [.abolish key]) =
      (log operations).filter fun clause => !(clause.key == key) := by
  rw [log, standing_append_singleton]
  exact List.append_nil _

/-- What a theory answers is read off its log. -/
theorem matching_after (operations : List Operation) (key : String) :
    (after operations).matching key = (log operations).filter fun clause => clause.key == key := by
  rw [matching, groups_after, Groups.get_grouped]

/-- The predicates are those of the clauses in the log, each of them where it first occurs. -/
theorem predicates_after (operations : List Operation) :
    (after operations).predicates = ((log operations).map Clause.key).eraseDups := by
  rw [predicates, groups_after, Groups.keys_grouped]

/-- There are as many clauses as in the log. -/
theorem size_after (operations : List Operation) :
    (after operations).size = (log operations).length := by
  rw [size, groups_after, Groups.size_grouped]

/-- A theory is an ordered log. After any operations a predicate has the clauses with its indicator
that were added and not removed since, in the order in which they were added. The predicates are
those with at least one clause, without repetition, in the order of the first clause that each of
them has in the log, and the size is the number of clauses under all of them. Removing a predicate
returns how many clauses it had and takes out these clauses only. -/
theorem history_ordered (operations : List Operation) :
    let theory := after operations
    let log := log operations
    (∀ key, theory.matching key = log.filter fun clause => clause.key == key) ∧
      theory.predicates.Nodup ∧
      (∀ key, key ∈ theory.predicates ↔ theory.matching key ≠ []) ∧
      theory.predicates = (log.map Clause.key).eraseDups ∧
      theory.size = (theory.predicates.map fun key => (theory.matching key).length).sum ∧
      ∀ key, let (count, rest) := theory.abolish key
        count = (theory.matching key).length ∧
          rest.size + count = theory.size ∧
          (∀ other, rest.matching other = if other = key then [] else theory.matching other) ∧
          rest.predicates = theory.predicates.filter fun other => other != key := by
  intro theory log
  have hmatching : ∀ key, theory.matching key = log.filter fun clause => clause.key == key :=
    matching_after operations
  have hpredicates : theory.predicates = (log.map Clause.key).eraseDups :=
    predicates_after operations
  refine ⟨hmatching, ?_, fun key => ?_, hpredicates, ?_, fun key => ?_⟩
  · rw [hpredicates]
    exact nodup_eraseDups _
  · rw [hpredicates, hmatching, List.mem_eraseDups, List.mem_map, Ne, List.filter_eq_nil_iff]
    simp [log]
  · simp only [theory, size, predicates, matching, groups_after]
    exact Groups.size_eq_sum Clause.key log
  · let rest := after (operations ++ [.abolish key])
    have hrest : theory.abolish key = ((theory.matching key).length, rest) := by
      simp only [rest, after, List.foldl_append]
      rfl
    have hlog : Theory.log (operations ++ [.abolish key]) =
        log.filter fun clause => !(clause.key == key) := log_append_abolish operations key
    rw [hrest]
    refine ⟨rfl, ?_, fun other => ?_, ?_⟩
    · rw [size_after, size_after, hlog, hmatching, Nat.add_comm]
      exact (List.length_eq_length_filter_add fun clause : Clause => clause.key == key).symm
    · rw [matching_after, hlog, List.filter_filter, hmatching]
      split
      · next h =>
        exact List.filter_eq_nil_iff.2 fun clause _ => by simp [h]
      · next h =>
        refine List.filter_congr fun clause _ => ?_
        by_cases hclause : clause.key = other <;> simp [hclause, h]
    · rw [predicates_after, hlog, hpredicates, ← eraseDups_filter, List.filter_map]
      rfl

end Theory

end ClauseResolution
