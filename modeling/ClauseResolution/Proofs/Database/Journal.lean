/-!
# What stands after a history

An event of a history may enter something, and it may withdraw things that were entered before.
What stands in the end is what was entered and not withdrawn since, in the order in which it was
entered. A further event takes away what it withdraws and appends what it enters, so a state that
does the same at every step is a record of what stands.
-/

namespace ClauseResolution

section Standing

variable {ε α : Type} (enters : ε → Option α) (withdraws : ε → α → Bool)

/-- What is entered and not withdrawn by a later event, in the order in which it is entered. -/
def standing : List ε → List α
  | [] => []
  | event :: later =>
    ((enters event).filter fun entry => !later.any fun e => withdraws e entry).toList ++
      standing later

/-- A further event withdraws from what stands and enters at the end. -/
theorem standing_append_singleton (events : List ε) (event : ε) :
    standing enters withdraws (events ++ [event]) =
      (standing enters withdraws events).filter (fun entry => !withdraws event entry) ++
        (enters event).toList := by
  induction events with
  | nil => cases h : enters event <;> simp [standing, h]
  | cons first events ih =>
    rw [List.cons_append, standing, ih, standing, List.filter_append, List.append_assoc]
    congr 1
    cases enters first with
    | none => rfl
    | some entry =>
      simp only [Option.filter_some, List.any_append, List.any_cons, List.any_nil, Bool.or_false,
        Bool.not_or]
      cases hlater : events.any fun e => withdraws e entry <;>
        cases hlast : withdraws event entry <;> simp [hlast]

/-- An entry stands when it is entered and withdrawn by nothing later. -/
theorem mem_standing {events : List ε} {entry : α} : entry ∈ standing enters withdraws events ↔
    ∃ before event later, events = before ++ event :: later ∧ enters event = some entry ∧
      ∀ e ∈ later, withdraws e entry = false := by
  induction events with
  | nil => simp [standing]
  | cons first events ih =>
    rw [standing, List.mem_append, ih, Option.mem_toList, Option.filter_eq_some_iff]
    constructor
    · rintro (⟨hfirst, hlater⟩ | ⟨before, event, later, rfl, hevent, hlater⟩)
      · exact ⟨[], first, events, rfl, hfirst, by simpa using hlater⟩
      · exact ⟨first :: before, event, later, rfl, hevent, hlater⟩
    · rintro ⟨before, event, later, hevents, hevent, hlater⟩
      cases before with
      | nil =>
        obtain ⟨rfl, rfl⟩ := List.cons.inj hevents
        exact Or.inl ⟨hevent, by simpa using hlater⟩
      | cons _ before =>
        obtain ⟨rfl, rfl⟩ := List.cons.inj hevents
        exact Or.inr ⟨before, event, later, rfl, hevent, hlater⟩

end Standing

end ClauseResolution
