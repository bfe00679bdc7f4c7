import ClauseResolution.Database.Dynamic
import ClauseResolution.Proofs.Database.Journal
import Mathlib.Data.List.Induction
import Mathlib.Data.List.Sort

/-!
# Slots of asserted clauses are stable

The slot that is returned when a clause is asserted is the number of slots there are. It holds the
clause until it is retracted or dropped, and it is not returned again before it is dropped, since
retracting a clause leaves its slot in place. The clauses that are still there stand in the order in
which they were asserted. All this is about whole histories; what one operation does to one slot
says it all.
-/

namespace ClauseResolution.DynamicClauses

/-- What can be done with asserted clauses. -/
inductive Operation
  /-- The clause a term denotes is asserted, if it denotes one, with the number of its text. -/
  | assertTerm (text : Nat) (t : Term)
  /-- A clause is asserted. -/
  | push (clause : Clause)
  /-- The clause in a slot is retracted. -/
  | retractAt (slot : Nat)
  /-- The slots from a number on are dropped. -/
  | retractFrom (slot : Nat)
  /-- All slots are dropped. -/
  | retractAll

namespace Operation

/-- The slot is dropped. -/
def truncates : Operation → Nat → Bool
  | retractFrom first, slot => first ≤ slot
  | retractAll, _ => true
  | _, _ => false

/-- A clause in the slot is retracted, or the slot is dropped. -/
def releases : Operation → Nat → Bool
  | retractAt own, slot => own == slot
  | operation, slot => operation.truncates slot

end Operation

/-- The clauses after an operation. A term that denotes no clause is refused. -/
def perform (d : DynamicClauses) : Operation → DynamicClauses
  | .assertTerm text t =>
    match d.assertTerm text t with
    | .ok (_, d') => d'
    | .error _ => d
  | .push clause => (d.push clause).2
  | .retractAt slot => (d.retractAt slot).2
  | .retractFrom slot => d.retractFrom slot
  | .retractAll => d.retractAll

/-- The slot that an assertion returns, with the clause that is asserted. -/
def asserted? (d : DynamicClauses) : Operation → Option (Nat × Clause)
  | .assertTerm text t =>
    match Clause.ofTerm text t, d.assertTerm text t with
    | .ok clause, .ok (slot, _) => some (slot, clause)
    | _, _ => none
  | .push clause => some ((d.push clause).1, clause)
  | _ => none

section Step

variable {d : DynamicClauses} {operation : Operation} {slot : Nat} {clause : Clause}

/-- A term is asserted as the clause it denotes, or nothing happens. -/
theorem assertTerm_cases (d : DynamicClauses) (text : Nat) (t : Term) :
    (∃ clause, d.perform (.assertTerm text t) = d.perform (.push clause) ∧
      d.asserted? (.assertTerm text t) = d.asserted? (.push clause)) ∨
    (d.perform (.assertTerm text t) = d ∧ d.asserted? (.assertTerm text t) = none) := by
  simp only [perform, asserted?, assertTerm]
  cases Clause.ofTerm text t with
  | ok clause => exact Or.inl ⟨clause, rfl, rfl⟩
  | error e => exact Or.inr ⟨rfl, rfl⟩

/-- A clause stands in one of the slots. -/
theorem lt_size_of_get? (h : d.get? slot = some clause) : slot < d.size := by
  have hslot : d.slots[slot]? = some (some clause) := Option.join_eq_some_iff.1 h
  exact (Array.getElem?_eq_some_iff.1 hslot).1

/-- A clause that is pushed takes the next slot, and the other slots stay as they are. -/
theorem get?_push (d : DynamicClauses) (clause : Clause) (slot : Nat) :
    (d.push clause).2.get? slot = if slot = d.size then some clause else d.get? slot := by
  rw [get?, push, Array.getElem?_push, apply_ite Option.join]
  rfl

/-- Retracting at a slot empties that slot only. -/
theorem get?_retractAt (d : DynamicClauses) (own slot : Nat) :
    (d.retractAt own).2.get? slot = if own = slot then none else d.get? slot := by
  rw [get?, retractAt, Array.getElem?_setIfInBounds]
  split
  · split <;> rfl
  · rfl

/-- Retracting from a slot on empties that slot and those after it. -/
theorem get?_retractFrom (d : DynamicClauses) (first slot : Nat) :
    (d.retractFrom first).get? slot = if first ≤ slot then none else d.get? slot := by
  rw [get?, retractFrom, Array.take_eq_extract, Array.getElem?_extract]
  split
  · next h => rw [if_neg (by omega), Nat.zero_add]; rfl
  · next h =>
    split
    · rfl
    · rw [get?, Array.getElem?_eq_none (by omega)]

/-- The slot that is returned is a new one, behind all others. -/
theorem slot_eq_size (h : d.asserted? operation = some (slot, clause)) : slot = d.size := by
  have hpush : ∀ other, d.asserted? (.push other) = some (slot, clause) → slot = d.size :=
    fun other heq => (congrArg Prod.fst (Option.some.inj heq)).symm
  cases operation with
  | assertTerm text t =>
    obtain ⟨other, -, hother⟩ | ⟨-, hnone⟩ := d.assertTerm_cases text t
    · exact hpush other (hother ▸ h)
    · exact absurd (hnone.symm.trans h) nofun
  | push other => exact hpush other h
  | retractAt => exact absurd h nofun
  | retractFrom => exact absurd h nofun
  | retractAll => exact absurd h nofun

/-- What one operation does to one slot. -/
theorem get?_perform (d : DynamicClauses) (operation : Operation) (slot : Nat) :
    (d.perform operation).get? slot =
      match d.asserted? operation with
      | some (own, clause) => if slot = own then some clause else d.get? slot
      | none => if operation.releases slot then none else d.get? slot := by
  cases operation with
  | assertTerm text t =>
    obtain ⟨clause, hperform, hasserted⟩ | ⟨hperform, hasserted⟩ := d.assertTerm_cases text t
    · rw [hperform, hasserted]
      exact d.get?_push clause slot
    · rw [hperform, hasserted]
      rfl
  | push clause => exact d.get?_push clause slot
  | retractAt own =>
    simp only [asserted?, Operation.releases, perform, beq_iff_eq]
    exact d.get?_retractAt own slot
  | retractFrom first =>
    simp only [asserted?, Operation.releases, Operation.truncates, perform, decide_eq_true_eq]
    exact d.get?_retractFrom first slot
  | retractAll => rfl

/-- A slot that is not dropped remains a slot. -/
theorem lt_size_perform (hslot : slot < d.size) (h : operation.truncates slot = false) :
    slot < (d.perform operation).size := by
  have hpush : ∀ clause, slot < (d.perform (.push clause)).size := fun clause => by
    rw [perform, push, size, Array.size_push]
    exact Nat.lt_succ_of_lt hslot
  cases operation with
  | assertTerm text t =>
    obtain ⟨clause, hperform, -⟩ | ⟨hperform, -⟩ := d.assertTerm_cases text t
    · rw [hperform]
      exact hpush clause
    · rwa [hperform]
  | push clause => exact hpush clause
  | retractAt own => rwa [perform, retractAt, size, Array.size_setIfInBounds]
  | retractFrom first =>
    have hfirst : slot < first := Nat.lt_of_not_le (of_decide_eq_false h)
    rw [perform, retractFrom, size, Array.take_eq_extract, Array.size_extract]
    rw [size] at hslot
    omega
  | retractAll => exact absurd h nofun

/-- An operation that asserts something retracts nothing. -/
theorem asserted?_eq_none_of_releases (h : operation.releases slot = true) :
    d.asserted? operation = none := by
  cases operation with
  | assertTerm => exact absurd h nofun
  | push => exact absurd h nofun
  | retractAt => rfl
  | retractFrom => rfl
  | retractAll => rfl

/-- An operation that asserts a clause releases no slot. -/
theorem releases_eq_false_of_asserted? {entry : Nat × Clause}
    (h : d.asserted? operation = some entry) (slot : Nat) : operation.releases slot = false := by
  cases hreleases : operation.releases slot with
  | false => rfl
  | true => exact absurd (h.symm.trans (asserted?_eq_none_of_releases hreleases)) nofun

/-- The slot that is returned holds the clause. -/
theorem get?_perform_of_asserted? (h : d.asserted? operation = some (slot, clause)) :
    (d.perform operation).get? slot = some clause := by
  rw [get?_perform, h]
  exact if_pos rfl

/-- A slot that is released is empty afterwards. -/
theorem get?_perform_of_releases (h : operation.releases slot = true) :
    (d.perform operation).get? slot = none := by
  rw [get?_perform, asserted?_eq_none_of_releases h]
  exact if_pos h

end Step

section Run

variable {d : DynamicClauses} {operation : Operation} {slot : Nat} {clause : Clause}

/-- The clauses after some operations. -/
def performAll (d : DynamicClauses) (operations : List Operation) : DynamicClauses :=
  operations.foldl perform d

/-- The clauses after some operations, when there are none at first. -/
def after (operations : List Operation) : DynamicClauses := empty.performAll operations

/-- The operations with what each of them asserts. -/
def journal (d : DynamicClauses) : List Operation → List (Option (Nat × Clause) × Operation)
  | [] => []
  | operation :: later => (d.asserted? operation, operation) :: (d.perform operation).journal later

/-- The slots that the assertions among some operations return, in turn. -/
def returned (d : DynamicClauses) (operations : List Operation) : List Nat :=
  ((d.journal operations).filterMap Prod.fst).map Prod.fst

/-- The journal lists the operations in their order. -/
theorem map_snd_journal (d : DynamicClauses) (operations : List Operation) :
    (d.journal operations).map Prod.snd = operations := by
  induction operations generalizing d with
  | nil => rfl
  | cons operation later ih => rw [journal, List.map_cons, ih]

/-- The first operation returns a slot, or a later one does. -/
theorem mem_returned_cons {later : List Operation} : slot ∈ d.returned (operation :: later) ↔
    (∃ clause, d.asserted? operation = some (slot, clause)) ∨
      slot ∈ (d.perform operation).returned later := by
  rw [returned, journal, List.filterMap_cons]
  cases d.asserted? operation with
  | none => simp [returned]
  | some entry => simp [returned, Prod.ext_iff, eq_comm]

/-- Operations are performed one after the other. -/
theorem performAll_append (d : DynamicClauses) (before later : List Operation) :
    d.performAll (before ++ later) = (d.performAll before).performAll later :=
  List.foldl_append

/-- The last operation is performed on what the earlier ones left. -/
theorem after_append_singleton (operations : List Operation) (operation : Operation) :
    after (operations ++ [operation]) = (after operations).perform operation :=
  performAll_append empty operations [operation]

/-- The journal goes on from the state in which the earlier operations end. -/
theorem journal_append (d : DynamicClauses) (before later : List Operation) :
    d.journal (before ++ later) = d.journal before ++ (d.performAll before).journal later := by
  induction before generalizing d with
  | nil => rfl
  | cons operation before ih => exact congrArg _ (ih (d.perform operation))

/-- A slot is not returned again as long as it is not dropped. -/
theorem notMem_returned {later : List Operation} (hslot : slot < d.size)
    (hlater : ∀ operation ∈ later, operation.truncates slot = false) :
    slot ∉ d.returned later := by
  induction later generalizing d with
  | nil => exact List.not_mem_nil
  | cons operation later ih =>
    obtain ⟨hoperation, hlater⟩ := List.forall_mem_cons.1 hlater
    have hrest : slot ∉ (d.perform operation).returned later :=
      ih (lt_size_perform hslot hoperation) hlater
    rw [mem_returned_cons, not_or]
    refine ⟨?_, hrest⟩
    rintro ⟨clause, hasserted⟩
    exact hslot.ne (slot_eq_size hasserted)

/-- A slot without a clause gets one only when it is returned. -/
theorem get?_performAll_eq_none {later : List Operation} (h : d.get? slot = none)
    (hlater : slot ∉ d.returned later) : (d.performAll later).get? slot = none := by
  induction later generalizing d with
  | nil => exact h
  | cons operation later ih =>
    rw [mem_returned_cons, not_or] at hlater
    refine ih ?_ hlater.2
    rw [get?_perform]
    cases hasserted : d.asserted? operation with
    | none => simp [h]
    | some entry =>
      obtain ⟨own, clause⟩ := entry
      have hne : slot ≠ own := fun heq => hlater.1 ⟨clause, heq ▸ hasserted⟩
      simp [hne, h]

end Run

section Occupied

variable {d : DynamicClauses} {slot : Nat} {clause : Clause}

/-- The slots that hold a clause, each with its clause. -/
def occupied (d : DynamicClauses) : List (Nat × Clause) :=
  (List.range d.size).filterMap fun slot => (d.get? slot).map fun clause => (slot, clause)

/-- What is asserted and not retracted since, in the order in which it is asserted. -/
def held (operations : List Operation) : List (Nat × Clause) :=
  standing Prod.fst (fun event entry => event.2.releases entry.1) (empty.journal operations)

/-- A slot is listed with the clause that stands in it. -/
theorem mem_occupied : (slot, clause) ∈ d.occupied ↔ d.get? slot = some clause := by
  simp only [occupied, List.mem_filterMap, List.mem_range, Option.map_eq_some_iff, Prod.mk.injEq]
  constructor
  · rintro ⟨_, -, _, h, rfl, rfl⟩
    exact h
  · exact fun h => ⟨slot, lt_size_of_get? h, clause, h, rfl, rfl⟩

/-- The occupied slots are listed in ascending order. -/
theorem pairwise_occupied (d : DynamicClauses) :
    d.occupied.Pairwise fun first second => first.1 < second.1 := by
  refine List.pairwise_lt_range.filterMap _ fun slot slot' hlt entry hentry entry' hentry' => ?_
  obtain ⟨_, -, rfl⟩ := Option.map_eq_some_iff.1 hentry
  obtain ⟨_, -, rfl⟩ := Option.map_eq_some_iff.1 hentry'
  exact hlt

/-- The slots in order hold what `get?` says. -/
theorem toList_slots (d : DynamicClauses) : d.slots.toList = (List.range d.size).map d.get? := by
  refine List.ext_getElem (by simp [size]) fun slot hslot _ => ?_
  rw [List.getElem_map, List.getElem_range, get?, Array.getElem?_eq_getElem hslot]
  rfl

/-- The live clauses are those in the occupied slots. -/
theorem live_eq (d : DynamicClauses) : d.live = d.occupied.map Prod.snd := by
  rw [live, toList_slots, occupied, List.filterMap_map, List.map_filterMap]
  congr 1
  funext slot
  cases h : d.get? slot <;> simp [h]

/-- The live clauses are counted by the occupied slots. -/
theorem liveCount_eq (d : DynamicClauses) : d.liveCount = d.occupied.length := by
  rw [← List.length_map Prod.snd, ← live_eq, live, List.length_filterMap_eq_countP, liveCount,
    ← Array.countP_toList]
  rfl

/-- Lists of slots with their clauses in slot order are equal when they have the same slots. -/
theorem eq_of_mem_iff {entries entries' : List (Nat × Clause)}
    (h : entries.Pairwise fun first second => first.1 < second.1)
    (h' : entries'.Pairwise fun first second => first.1 < second.1)
    (hmem : ∀ entry, entry ∈ entries ↔ entry ∈ entries') : entries = entries' := by
  have : Std.Irrefl fun first second : Nat × Clause => first.1 < second.1 :=
    ⟨fun entry => Nat.lt_irrefl entry.1⟩
  have : Std.Antisymm fun first second : Nat × Clause => first.1 < second.1 :=
    ⟨fun _ _ hlt hgt => absurd hgt (Nat.lt_asymm hlt)⟩
  exact h.eq_of_mem_iff h' hmem

/-- An operation takes out what it releases and puts what it asserts behind the rest. -/
theorem occupied_perform (d : DynamicClauses) (operation : Operation) :
    (d.perform operation).occupied =
      d.occupied.filter (fun entry => !operation.releases entry.1) ++
        (d.asserted? operation).toList := by
  refine eq_of_mem_iff (pairwise_occupied _) (List.pairwise_append.2 ⟨?_, ?_, ?_⟩) ?_
  · exact (pairwise_occupied d).filter _
  · cases d.asserted? operation with
    | none => exact List.Pairwise.nil
    | some entry => exact List.pairwise_singleton _ entry
  · rintro ⟨slot, clause⟩ hold ⟨own, other⟩ hnew
    have hslot : slot < d.size := lt_size_of_get? (mem_occupied.1 (List.mem_of_mem_filter hold))
    exact (slot_eq_size (Option.mem_toList.1 hnew)).symm ▸ hslot
  · rintro ⟨slot, clause⟩
    rw [mem_occupied, get?_perform, List.mem_append, List.mem_filter, mem_occupied]
    cases hasserted : d.asserted? operation with
    | none => cases operation.releases slot <;> simp
    | some entry =>
      obtain ⟨own, other⟩ := entry
      have hown : own = d.size := slot_eq_size hasserted
      have hold : d.get? slot = some clause → slot ≠ own := fun h => hown ▸ (lt_size_of_get? h).ne
      rw [releases_eq_false_of_asserted? hasserted]
      by_cases hslot : slot = own
      · have hnone : d.get? slot ≠ some clause := fun h => hold h hslot
        simp [hslot ▸ hnone, hslot, eq_comm]
      · simp [hslot]

/-- After any operations the slots hold what was asserted and not retracted since. -/
theorem occupied_after (operations : List Operation) :
    (after operations).occupied = held operations := by
  induction operations using List.reverseRecOn with
  | nil => rfl
  | append_singleton operations operation ih =>
    have hjournal : empty.journal (operations ++ [operation]) =
        empty.journal operations ++ [((after operations).asserted? operation, operation)] :=
      journal_append empty operations [operation]
    rw [held, hjournal, standing_append_singleton, ← held, ← ih, after_append_singleton]
    exact occupied_perform _ operation

/-- A clause is held as long as its slot is not released. -/
theorem get?_after_of_asserted? {before later : List Operation} {operation : Operation}
    (h : (after before).asserted? operation = some (slot, clause))
    (hlater : ∀ next ∈ later, next.releases slot = false) :
    (after (before ++ operation :: later)).get? slot = some clause := by
  rw [← mem_occupied, occupied_after, held, journal_append, mem_standing]
  refine ⟨_, _, _, rfl, h, fun event hevent => hlater event.2 ?_⟩
  rw [← map_snd_journal ((after before).perform operation) later]
  exact List.mem_map_of_mem hevent

end Occupied

/-- Slots are stable. When an assertion returns a slot, the slot holds the clause until it is
retracted or dropped, and no assertion returns it again before it is dropped. When a slot is
retracted or dropped, it holds nothing until an assertion returns it again. After any operations
the slots that hold a clause stand in the order in which their clauses were asserted, these are the
clauses that are found, and the live slots are counted. -/
theorem slots_stable (operations : List Operation) :
    let d := after operations
    (∀ before operation later slot, operations = before ++ operation :: later →
      (∀ clause, (after before).asserted? operation = some (slot, clause) →
        ((∀ next ∈ later, next.releases slot = false) → d.get? slot = some clause) ∧
        ((∀ next ∈ later, next.truncates slot = false) →
          slot ∉ (after (before ++ [operation])).returned later)) ∧
      (operation.releases slot = true → slot ∉ (after (before ++ [operation])).returned later →
        d.get? slot = none)) ∧
    d.occupied = held operations ∧
    (d.occupied.Pairwise fun first second => first.1 < second.1) ∧
    (∀ key, d.matching key =
      (d.occupied.map Prod.snd).filter fun clause => clause.key == key) ∧
    d.liveCount = d.occupied.length := by
  intro d
  refine ⟨?_, occupied_after operations, pairwise_occupied d, fun key => ?_, liveCount_eq d⟩
  · rintro before operation later slot rfl
    rw [after_append_singleton]
    refine ⟨fun clause hasserted => ⟨get?_after_of_asserted? hasserted, ?_⟩,
      fun hreleases hlater => ?_⟩
    · exact notMem_returned (lt_size_of_get? (get?_perform_of_asserted? hasserted))
    · have hd : d = ((after before).perform operation).performAll later :=
        performAll_append empty before (operation :: later)
      exact hd ▸ get?_performAll_eq_none (get?_perform_of_releases hreleases) hlater
  · rw [matching, live_eq]

/-- A clause keeps its slot when the one before it is retracted, and the slot that was retracted is
not filled by the next assertion. -/
theorem slots_stable_of_retractAt :
    let first : Clause := ⟨⟨"p", [], 0⟩, Clause.truth, [], 0⟩
    let second : Clause := ⟨⟨"q", [], 0⟩, Clause.truth, [], 1⟩
    let later : List Operation := [.retractAt 0, .push first]
    let d := after (.push first :: .push second :: later)
    d.get? 1 = some second ∧
      1 ∉ (after [.push first, .push second]).returned later ∧
      d.get? 0 = none := by
  intro first second later d
  obtain ⟨h, -⟩ := slots_stable (.push first :: .push second :: later)
  obtain ⟨hsecond, -⟩ := h [.push first] (.push second) later 1 rfl
  obtain ⟨-, hretracted⟩ := h [.push first, .push second] (.retractAt 0) [.push first] 0 rfl
  exact ⟨(hsecond second rfl).1 (by decide), (hsecond second rfl).2 (by decide),
    hretracted rfl (by decide)⟩

end ClauseResolution.DynamicClauses
