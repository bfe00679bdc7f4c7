import ClauseResolution.Proofs.Substitution.Deref
import ClauseResolution.Substitution.Reify

/-!
# Applying substitutions that bind the same values

The walk that orders the bound slots below a term never runs out of its budget, since
the slots it has opened and closed are bound and distinct. So the order, and with it the
term that has its variables replaced, depends only on the values that the slots have.
-/

namespace ClauseResolution

/-- The slots that are closed by the remaining tasks, the next one first. -/
def SlotTask.closing : List SlotTask → List Nat
  | [] => []
  | .visit _ :: rest => SlotTask.closing rest
  | .close slot :: rest => slot :: SlotTask.closing rest

/-- Visiting terms closes no slots. -/
@[simp] theorem SlotTask.closing_visits (ts : List Term) (rest : List SlotTask) :
    SlotTask.closing (SlotTask.visits ts rest) = SlotTask.closing rest := by
  induction ts with
  | nil => rfl
  | cons t ts ih => exact ih

namespace Store

variable {σ τ : Store} {c d : Context}

/-- The slots that a walk has opened and closed are distinct and bound, those opened are
the ones its tasks close, and the budget suffices for all others. -/
structure Walks (σ : Store) (c : Context) (budget : Nat) (opened closed : List Nat)
    (tasks : List SlotTask) : Prop where
  /-- The tasks close what is open, the newest first. -/
  closing : SlotTask.closing tasks = opened
  /-- No slot is opened or closed twice. -/
  nodup : (opened ++ closed).Nodup
  /-- Only bound slots are opened. -/
  bound : ∀ slot ∈ opened ++ closed, (σ.valueAt c slot).isSome
  /-- The budget covers the slots that are left. -/
  budget_le : c.stamp ≤ budget + (opened ++ closed).length

namespace Walks

variable {budget slot : Nat} {opened closed : List Nat} {rest tasks : List SlotTask}

/-- The walk from a term starts well. -/
theorem start (σ : Store) (c : Context) (t : Term) : σ.Walks c c.stamp [] [] [.visit t] :=
  ⟨rfl, by simp, by simp, by simp⟩

/-- Closing the slot opened last. -/
theorem close (h : σ.Walks c budget opened closed (.close slot :: rest)) :
    σ.Walks c budget (opened.erase slot) (slot :: closed) rest := by
  obtain ⟨hclosing, hnodup, hbound, hbudget⟩ := h
  rw [SlotTask.closing] at hclosing
  subst hclosing
  have hperm : (SlotTask.closing rest ++ slot :: closed).Perm
      (slot :: SlotTask.closing rest ++ closed) := List.perm_middle
  rw [List.erase_cons_head]
  refine ⟨rfl, hperm.nodup_iff.2 hnodup, fun i hi => hbound i (hperm.mem_iff.1 hi), ?_⟩
  rwa [hperm.length_eq]

/-- Going on with other tasks that close the same slots. -/
theorem retask (h : σ.Walks c budget opened closed tasks)
    (hclosing : SlotTask.closing rest = SlotTask.closing tasks) :
    σ.Walks c budget opened closed rest :=
  ⟨hclosing.trans h.closing, h.nodup, h.bound, h.budget_le⟩

/-- The slots touched so far and a new one are no more than the stamp. -/
theorem length_lt (h : σ.Walks c budget opened closed tasks)
    (hclosed : slot ∉ closed) (hopened : slot ∉ opened) (hslot : (σ.valueAt c slot).isSome) :
    (opened ++ closed).length < c.stamp := by
  have hnew : slot ∉ opened ++ closed := by simp [hclosed, hopened]
  exact length_le_stamp_of_bound (List.nodup_cons.2 ⟨hnew, h.nodup⟩)
    (List.forall_mem_cons.2 ⟨hslot, h.bound⟩)

/-- Opening a bound slot that was not met before. -/
theorem openSlot {value : Term} (h : σ.Walks c (budget + 1) opened closed tasks)
    (hclosed : slot ∉ closed) (hopened : slot ∉ opened) (hslot : (σ.valueAt c slot).isSome)
    (hclosing : SlotTask.closing rest = SlotTask.closing tasks) :
    σ.Walks c budget (slot :: opened) closed (.visit value :: .close slot :: rest) := by
  have hnew : slot ∉ opened ++ closed := by simp [hclosed, hopened]
  refine ⟨?_, List.nodup_cons.2 ⟨hnew, h.nodup⟩, List.forall_mem_cons.2 ⟨hslot, h.bound⟩, ?_⟩
  · rw [SlotTask.closing, SlotTask.closing, hclosing, h.closing]
  · have := h.budget_le
    rw [List.cons_append, List.length_cons]
    omega

end Walks

/-- The order of slots depends only on their values. -/
theorem slotOrder_congr (h : ∀ slot, σ.valueAt c slot = τ.valueAt d slot) {budget budget' : Nat}
    {opened closed : List Nat} {tasks : List SlotTask}
    (hσ : σ.Walks c budget opened closed tasks) (hτ : τ.Walks d budget' opened closed tasks) :
    σ.slotOrder c budget opened closed tasks = τ.slotOrder d budget' opened closed tasks := by
  have hlookup : ∀ slot, τ.lookup d slot = σ.lookup c slot := fun slot => by
    rw [lookup, lookup, h]
  fun_induction slotOrder σ c budget opened closed tasks generalizing budget' with
  | case1 => rw [slotOrder]
  | case2 budget opened closed slot rest ih => rw [slotOrder, ih hσ.close hτ.close]
  | case3 budget opened closed v rest hindex ih =>
    rw [slotOrder, hindex]
    exact ih (hσ.retask rfl) (hτ.retask rfl)
  | case4 budget opened closed v rest slot hindex hclosed ih =>
    rw [slotOrder, hindex]
    simp only [hclosed, if_true]
    exact ih (hσ.retask rfl) (hτ.retask rfl)
  | case5 budget opened closed v rest slot hindex hclosed hopened =>
    rw [slotOrder, hindex]
    simp only [hclosed, hopened, if_true, Bool.false_eq_true, if_false]
  | case6 budget opened closed v rest slot hindex hclosed hopened hvalue ih =>
    rw [slotOrder, hindex]
    simp only [hclosed, hopened, hlookup, hvalue, Bool.false_eq_true, if_false]
    exact ih (hσ.retask rfl) (hτ.retask rfl)
  | case7 opened closed v rest slot hindex hclosed hopened value hvalue =>
    have hbound : (σ.valueAt c slot).isSome := by
      rw [← Option.isSome_map, ← lookup, hvalue]
      rfl
    have hlt := hσ.length_lt (by simpa using hclosed) (by simpa using hopened) hbound
    have hle := hσ.budget_le
    omega
  | case8 opened closed v rest slot hindex hclosed hopened value hvalue budget ih =>
    have hbound : (σ.valueAt c slot).isSome := by
      rw [← Option.isSome_map, ← lookup, hvalue]
      rfl
    have hbound' : (τ.valueAt d slot).isSome := by rwa [← h]
    have hclosed' : slot ∉ closed := by simpa using hclosed
    have hopened' : slot ∉ opened := by simpa using hopened
    have hlt := hτ.length_lt hclosed' hopened' hbound'
    have hle := hτ.budget_le
    obtain ⟨rest', rfl⟩ : ∃ n, budget' = n + 1 := ⟨budget' - 1, by omega⟩
    rw [slotOrder, hindex]
    simp only [hclosed, hopened, hlookup, hvalue, Bool.false_eq_true, if_false]
    exact ih (hσ.openSlot hclosed' hopened' hbound rfl) (hτ.openSlot hclosed' hopened' hbound' rfl)
  | case9 budget opened closed functor args varCount rest ih =>
    rw [slotOrder]
    exact ih (hσ.retask (SlotTask.closing_visits args rest))
      (hτ.retask (SlotTask.closing_visits args rest))
  | case10 budget opened closed name rest ih | case11 budget opened closed value rest ih =>
    rw [slotOrder]
    exact ih (hσ.retask rfl) (hτ.retask rfl)

/-- The term with its variables replaced depends only on the values of the slots. -/
theorem reify_congr (h : ∀ slot, σ.valueAt c slot = τ.valueAt d slot) (t : Term) :
    σ.reify c t = τ.reify d t := by
  have htable : σ.tableOf c = τ.tableOf d := by
    funext order
    simp only [tableOf, lookup, h]
  rw [reify, reify, htable, slotOrder_congr h (.start σ c t) (.start τ d t)]

end Store

end ClauseResolution
