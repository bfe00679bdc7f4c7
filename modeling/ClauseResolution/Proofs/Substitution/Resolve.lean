import ClauseResolution.Proofs.Substitution.Acyclic
import ClauseResolution.Proofs.Substitution.Reify
import ClauseResolution.Proofs.Term.Assignment

/-!
# The assignment of an acyclic substitution

In an acyclic substitution the walk over the bound slots below a term meets no slot
inside its own value, and it lists each slot before those in its value. So the values in
the table are such that each slot has its value with the table applied. There is only
one assignment with this property, and replacing the variables of a term is applying it.
-/

namespace ClauseResolution

namespace Substitution

variable {s : Substitution}

/-- Each slot of the list is bound and stands before the bound slots in its value. -/
def Ordered (s : Substitution) : List Nat → Prop
  | [] => True
  | slot :: rest => slot ∉ rest ∧ (∃ value, s.valueAt slot = some value ∧
      ∀ j ∈ value.term.slots, (s.valueAt j).isSome → j ∈ rest) ∧ s.Ordered rest

/-- When a slot is closed, the bound slots in its value are ready: they were ready before,
or are met by the tasks before that. -/
def Covered (s : Substitution) (ready : Nat → Prop) : List SlotTask → Prop
  | [] => True
  | .visit t :: rest => s.Covered (fun j => ready j ∨ j ∈ t.slots) rest
  | .close slot :: rest =>
    (∀ value, s.valueAt slot = some value →
      ∀ j ∈ value.term.slots, (s.valueAt j).isSome → ready j) ∧
    s.Covered (fun j => ready j ∨ j = slot) rest

/-- The slot that is closed next leads to the slots in the terms that are visited before
that, and to the slot that was opened after it. -/
def Guarded (s : Substitution) : List SlotTask → Prop
  | [] => True
  | .visit t :: rest =>
    (∀ o, (SlotTask.closing rest).head? = some o → ∀ j ∈ t.slots, s.Leads o j) ∧ s.Guarded rest
  | .close slot :: rest =>
    (∀ o, (SlotTask.closing rest).head? = some o → s.Leads o slot) ∧ s.Guarded rest

/-- What is covered by some slots is covered by more. -/
theorem Covered.mono {ready ready' : Nat → Prop} {tasks : List SlotTask}
    (h : s.Covered ready tasks) (hle : ∀ j, (s.valueAt j).isSome → ready j → ready' j) :
    s.Covered ready' tasks := by
  induction tasks generalizing ready ready' with
  | nil => trivial
  | cons task tasks ih =>
    cases task with
    | visit t => exact ih h fun j hj hready => hready.imp_left (hle j hj)
    | close slot =>
      refine ⟨fun value hvalue j hj hbound => hle j hbound (h.1 value hvalue j hj hbound), ?_⟩
      exact ih h.2 fun j hj hready => hready.imp_left (hle j hj)

/-- Visits cover the slots in the terms that are visited, before the tasks behind them. -/
theorem covered_visits {ready : Nat → Prop} {ts : List Term} {rest : List SlotTask} :
    s.Covered ready (SlotTask.visits ts rest) ↔
      s.Covered (fun j => ready j ∨ ∃ t ∈ ts, j ∈ t.slots) rest := by
  induction ts generalizing ready with
  | nil => simp [SlotTask.visits]
  | cons t ts ih =>
    change s.Covered _ (SlotTask.visits ts rest) ↔ _
    rw [ih]
    simp [or_assoc]

/-- Visits are guarded when the slot that is closed next leads to the slots in the terms. -/
theorem guarded_visits {ts : List Term} {rest : List SlotTask} (hrest : s.Guarded rest)
    (h : ∀ o, (SlotTask.closing rest).head? = some o → ∀ t ∈ ts, ∀ j ∈ t.slots, s.Leads o j) :
    s.Guarded (SlotTask.visits ts rest) := by
  induction ts with
  | nil => exact hrest
  | cons t ts ih =>
    refine ⟨fun o ho => ?_, ih fun o ho u hu => h o ho u (List.mem_cons_of_mem _ hu)⟩
    change (SlotTask.closing (SlotTask.visits ts rest)).head? = some o at ho
    rw [SlotTask.closing_visits] at ho
    exact h o ho t List.mem_cons_self

/-- Every open slot leads to the one that is closed next. -/
theorem Guarded.reflTransGen {tasks : List SlotTask} (h : s.Guarded tasks) {slot o : Nat}
    (hslot : slot ∈ SlotTask.closing tasks) (ho : (SlotTask.closing tasks).head? = some o) :
    Relation.ReflTransGen s.Leads slot o := by
  induction tasks generalizing o with
  | nil => simp [SlotTask.closing] at hslot
  | cons task tasks ih =>
    cases task with
    | visit t => exact ih h.2 hslot ho
    | close newest =>
      rw [SlotTask.closing] at hslot ho
      cases ho
      rcases List.mem_cons.1 hslot with rfl | hslot
      · exact .refl
      · obtain ⟨next, hnext⟩ : ∃ next, (SlotTask.closing tasks).head? = some next :=
          ⟨_, List.head?_eq_some_head (List.ne_nil_of_mem hslot)⟩
        exact .tail (ih h.2 hslot hnext) (h.1 next hnext)

end Substitution

namespace Store

variable {σ : Store} {c : Context}

/-- A walk under way: what is closed is in order, what is open will be, and open slots lead
to what is met below them. -/
structure Orders (σ : Store) (c : Context) (budget : Nat) (opened closed : List Nat)
    (tasks : List SlotTask) : Prop extends σ.Walks c budget opened closed tasks where
  /-- The closed slots are in order. -/
  ordered : (σ.substitution c).Ordered closed
  /-- Open slots are closed only after the slots in their values. -/
  covered : (σ.substitution c).Covered (· ∈ closed) tasks
  /-- Open slots lead to what is met below them. -/
  guarded : (σ.substitution c).Guarded tasks

namespace Orders

variable {budget slot : Nat} {opened closed : List Nat} {rest tasks : List SlotTask}

/-- The walk from a term starts well. -/
theorem start (σ : Store) (c : Context) (t : Term) : σ.Orders c c.stamp [] [] [.visit t] :=
  ⟨.start σ c t, trivial, trivial, ⟨fun o ho => by simp [SlotTask.closing] at ho, trivial⟩⟩

/-- Closing a slot puts it in front of those that are closed, and it is open no longer. -/
theorem close (h : σ.Orders c budget opened closed (.close slot :: rest)) :
    σ.Orders c budget (opened.erase slot) (slot :: closed) rest := by
  obtain ⟨hwalks, hordered, ⟨hready, hcovered⟩, hguarded⟩ := h
  have hopened : slot ∈ opened := by
    rw [← hwalks.closing]
    exact List.mem_cons_self
  have hclosed : slot ∉ closed := fun hmem =>
    (List.nodup_append.1 hwalks.nodup).2.2 slot hopened slot hmem rfl
  obtain ⟨value, hvalue⟩ := Option.isSome_iff_exists.1
    (hwalks.bound slot (List.mem_append_left _ hopened))
  rw [← valueAt_substitution] at hvalue
  refine ⟨hwalks.close, ⟨hclosed, ⟨value, hvalue, hready value hvalue⟩, hordered⟩, ?_, hguarded.2⟩
  exact hcovered.mono fun j _ hj => List.mem_cons.2 hj.symm

/-- Passing over a term whose bound slots are closed. -/
theorem skip {t : Term} (h : σ.Orders c budget opened closed (.visit t :: rest))
    (ht : ∀ j ∈ t.slots, ((σ.substitution c).valueAt j).isSome → j ∈ closed) :
    σ.Orders c budget opened closed rest := by
  have hcovered : (σ.substitution c).Covered (fun j => j ∈ closed ∨ j ∈ t.slots) rest := h.covered
  refine ⟨h.toWalks.retask rfl, h.ordered, hcovered.mono fun j hbound hj => ?_, h.guarded.2⟩
  exact hj.elim id fun hslot => ht j hslot hbound

/-- Going on with the arguments of a compound term. -/
theorem descend {functor : String} {args : List Term} {varCount : Nat}
    (h : σ.Orders c budget opened closed (.visit (.compound functor args varCount) :: rest)) :
    σ.Orders c budget opened closed (SlotTask.visits args rest) := by
  have hcovered : (σ.substitution c).Covered (fun j => j ∈ closed ∨
      j ∈ (Term.compound functor args varCount).slots) rest := h.covered
  refine ⟨h.toWalks.retask (SlotTask.closing_visits args rest), h.ordered, ?_, ?_⟩
  · rw [Substitution.covered_visits]
    exact hcovered.mono fun j _ hj => hj.imp_right Term.mem_slots_compound.1
  · refine Substitution.guarded_visits h.guarded.2 fun o ho t ht j hj => ?_
    exact h.guarded.1 o ho j (Term.mem_slots_compound.2 ⟨t, ht, hj⟩)

/-- Opening a bound slot that was not met before. -/
theorem openSlot {v : Var} {value : Occurrence}
    (h : σ.Orders c (budget + 1) opened closed (.visit (.var v) :: rest))
    (hindex : v.index = some slot) (hvalue : (σ.substitution c).valueAt slot = some value)
    (hclosed : slot ∉ closed) (hopened : slot ∉ opened) :
    σ.Orders c budget (slot :: opened) closed (.visit value.term :: .close slot :: rest) := by
  have hbound : (σ.valueAt c slot).isSome := by rw [← valueAt_substitution, hvalue]; rfl
  have hslot : slot ∈ (Term.var v).slots := Term.mem_slots_var.2 hindex
  have hcovered : (σ.substitution c).Covered (fun j => j ∈ closed ∨ j ∈ (Term.var v).slots) rest :=
    h.covered
  refine ⟨h.toWalks.openSlot hclosed hopened hbound rfl, h.ordered, ⟨?_, ?_⟩, ?_, ?_, h.guarded.2⟩
  · intro value' hvalue' j hj _
    rw [hvalue] at hvalue'
    cases hvalue'
    exact Or.inr hj
  · refine hcovered.mono fun j _ hj => ?_
    rcases hj with hj | hj
    · exact Or.inl (Or.inl hj)
    · rw [Term.mem_slots_var, hindex] at hj
      exact Or.inr (Option.some.inj hj).symm
  · intro o ho j hj
    cases ho
    exact ⟨value, hvalue, hj⟩
  · exact fun o ho => h.guarded.1 o ho slot hslot

/-- In an acyclic substitution no open slot is met again. -/
theorem not_mem_opened (hacyclic : (σ.substitution c).Acyclic) {v : Var}
    (h : σ.Orders c budget opened closed (.visit (.var v) :: rest)) (hindex : v.index = some slot) :
    slot ∉ opened := by
  intro hmem
  have hclosing : SlotTask.closing rest = opened := h.closing
  rw [← hclosing] at hmem
  obtain ⟨o, ho⟩ : ∃ o, (SlotTask.closing rest).head? = some o :=
    ⟨_, List.head?_eq_some_head (List.ne_nil_of_mem hmem)⟩
  have hleads := h.guarded.1 o ho slot (Term.mem_slots_var.2 hindex)
  exact hacyclic slot (Relation.TransGen.tail' (h.guarded.2.reflTransGen hmem ho) hleads)

end Orders

/-- A list of slots in order, with all that was closed or open and all bound slots of the
terms that were to be visited. -/
structure Lists (σ : Store) (c : Context) (opened closed : List Nat) (tasks : List SlotTask)
    (order : List Nat) : Prop where
  /-- The slots are in order. -/
  ordered : (σ.substitution c).Ordered order
  /-- What was closed is listed. -/
  closed : closed ⊆ order
  /-- What was open is listed. -/
  opened : opened ⊆ order
  /-- What was to be visited is listed. -/
  visited : ∀ t, .visit t ∈ tasks → ∀ j ∈ t.slots, ((σ.substitution c).valueAt j).isSome → j ∈ order

/-- A term whose bound slots are listed may have been visited too. -/
theorem Lists.cons_visit {opened closed order : List Nat} {tasks : List SlotTask} {t : Term}
    (h : σ.Lists c opened closed tasks order)
    (ht : ∀ j ∈ t.slots, ((σ.substitution c).valueAt j).isSome → j ∈ order) :
    σ.Lists c opened closed (.visit t :: tasks) order := by
  refine ⟨h.ordered, h.closed, h.opened, fun u hu => ?_⟩
  rcases List.mem_cons.1 hu with heq | hu
  · cases heq
    exact ht
  · exact h.visited u hu

/-- In an acyclic substitution the walk lists the slots it meets in order. -/
theorem exists_slotOrder (h : (σ.substitution c).Acyclic) {budget : Nat} {opened closed : List Nat}
    {tasks : List SlotTask} (horders : σ.Orders c budget opened closed tasks) :
    ∃ order, σ.slotOrder c budget opened closed tasks = some order ∧
      σ.Lists c opened closed tasks order := by
  have hlookup : ∀ slot, σ.lookup c slot =
      ((σ.substitution c).valueAt slot).map Occurrence.term := fun slot => by
    rw [lookup, valueAt_substitution]
  fun_induction slotOrder σ c budget opened closed tasks with
  | case1 budget opened closed =>
    have hopened : opened = [] := horders.closing.symm
    subst hopened
    exact ⟨closed, rfl, horders.ordered, fun _ hi => hi, by simp, by simp⟩
  | case2 budget opened closed slot rest ih =>
    obtain ⟨order, horder, hlists⟩ := ih horders.close
    have hslot : slot ∈ order := hlists.closed List.mem_cons_self
    refine ⟨order, horder, hlists.ordered, fun i hi => hlists.closed (List.mem_cons_of_mem _ hi),
      fun i hi => ?_, fun t ht => hlists.visited t (by simpa using ht)⟩
    by_cases heq : i = slot
    · exact heq ▸ hslot
    · exact hlists.opened ((List.mem_erase_of_ne heq).2 hi)
  | case3 budget opened closed v rest hindex ih =>
    have hslots : ∀ j ∈ (Term.var v).slots, ((σ.substitution c).valueAt j).isSome → j ∈ closed := by
      simp [hindex]
    obtain ⟨order, horder, hlists⟩ := ih (horders.skip hslots)
    exact ⟨order, horder, hlists.cons_visit fun j hj hbound => hlists.closed (hslots j hj hbound)⟩
  | case4 budget opened closed v rest slot hindex hclosed ih =>
    have hslots : ∀ j ∈ (Term.var v).slots, ((σ.substitution c).valueAt j).isSome → j ∈ closed := by
      intro j hj _
      rw [Term.mem_slots_var, hindex] at hj
      exact Option.some.inj hj ▸ List.contains_iff_mem.1 hclosed
    obtain ⟨order, horder, hlists⟩ := ih (horders.skip hslots)
    exact ⟨order, horder, hlists.cons_visit fun j hj hbound => hlists.closed (hslots j hj hbound)⟩
  | case5 budget opened closed v rest slot hindex hclosed hopened =>
    exact absurd (List.contains_iff_mem.1 hopened) (horders.not_mem_opened h hindex)
  | case6 budget opened closed v rest slot hindex hclosed hopened hvalue ih =>
    have hslots : ∀ j ∈ (Term.var v).slots, ((σ.substitution c).valueAt j).isSome → j ∈ closed := by
      intro j hj hbound
      rw [Term.mem_slots_var, hindex] at hj
      rw [hlookup, Option.map_eq_none_iff] at hvalue
      rw [← Option.some.inj hj, hvalue] at hbound
      cases hbound
    obtain ⟨order, horder, hlists⟩ := ih (horders.skip hslots)
    exact ⟨order, horder, hlists.cons_visit fun j hj hbound => hlists.closed (hslots j hj hbound)⟩
  | case7 opened closed v rest slot hindex hclosed hopened value hvalue =>
    rw [hlookup, Option.map_eq_some_iff] at hvalue
    obtain ⟨value, hvalue, _⟩ := hvalue
    rw [valueAt_substitution] at hvalue
    have hlt := horders.toWalks.length_lt (by simpa using hclosed) (by simpa using hopened)
      (by rw [hvalue]; rfl)
    have hle := horders.budget_le
    omega
  | case8 opened closed v rest slot hindex hclosed hopened value hvalue budget ih =>
    rw [hlookup, Option.map_eq_some_iff] at hvalue
    obtain ⟨value, hvalue, rfl⟩ := hvalue
    obtain ⟨order, horder, hlists⟩ := ih (horders.openSlot hindex hvalue (by simpa using hclosed)
      (by simpa using hopened))
    obtain ⟨hslot, hopened'⟩ := List.cons_subset.1 hlists.opened
    refine ⟨order, horder, Lists.cons_visit ⟨hlists.ordered, hlists.closed, hopened', ?_⟩ ?_⟩
    · exact fun t ht => hlists.visited t (by simp [ht])
    · intro j hj _
      rw [Term.mem_slots_var, hindex] at hj
      exact Option.some.inj hj ▸ hslot
  | case9 budget opened closed functor args varCount rest ih =>
    obtain ⟨order, horder, hlists⟩ := ih horders.descend
    refine ⟨order, horder, Lists.cons_visit ⟨hlists.ordered, hlists.closed, hlists.opened, ?_⟩ ?_⟩
    · exact fun t ht => hlists.visited t (by simp [SlotTask.visits, ht])
    · intro j hj hbound
      obtain ⟨t, ht, hj⟩ := Term.mem_slots_compound.1 hj
      exact hlists.visited t (by simp [SlotTask.visits, ht]) j hj hbound
  | case10 budget opened closed name rest ih | case11 budget opened closed value rest ih =>
    obtain ⟨order, horder, hlists⟩ := ih (horders.skip (by simp))
    exact ⟨order, horder, hlists.cons_visit (by simp)⟩

end Store

namespace Substitution

variable {s : Substitution}

/-- The assignment gives to a slot what the substitution does: nothing to a free one, and
to a bound one its value with the assignment applied. -/
def Solves (s : Substitution) (θ : Assignment) (slot : Nat) : Prop :=
  θ slot = (s.valueAt slot).map fun value => value.term.assign θ

/-- What is listed in order is bound. -/
theorem Ordered.isSome_valueAt {order : List Nat} (h : s.Ordered order) :
    ∀ i ∈ order, (s.valueAt i).isSome := by
  induction order with
  | nil => simp
  | cons slot rest ih =>
    obtain ⟨_, ⟨value, hvalue, _⟩, hrest⟩ := h
    exact List.forall_mem_cons.2 ⟨by rw [hvalue]; rfl, ih hrest⟩

/-- From what is listed in order, bound slots that are listed are reached only. -/
theorem Ordered.mem_of_leads {order : List Nat} (h : s.Ordered order) {i j : Nat} (hi : i ∈ order)
    (hleads : s.Leads i j) (hj : (s.valueAt j).isSome) : j ∈ order := by
  induction order with
  | nil => simp at hi
  | cons slot rest ih =>
    obtain ⟨_, ⟨value, hvalue, hslots⟩, hrest⟩ := h
    refine List.mem_cons_of_mem _ ?_
    rcases List.mem_cons.1 hi with rfl | hi
    · obtain ⟨value', hvalue', hmem⟩ := hleads
      rw [hvalue] at hvalue'
      cases hvalue'
      exact hslots j hmem hj
    · exact ih hrest hi

end Substitution

namespace Store

variable {σ : Store} {c : Context}

/-- The table has values only for the slots in the list. -/
theorem lookup_tableOf_of_not_mem {order : List Nat} {i : Nat} (hi : i ∉ order) :
    (σ.tableOf c order).lookup i = none := by
  induction order with
  | nil => rfl
  | cons slot rest ih =>
    obtain ⟨hne, hrest⟩ : i ≠ slot ∧ i ∉ rest := by simpa using hi
    have hbeq : (i == slot) = false := by simpa using hne
    rw [tableOf, List.foldr_cons, ← tableOf]
    cases σ.lookup c slot with
    | none => exact ih hrest
    | some value => simpa [List.lookup_cons, hbeq] using ih hrest

/-- The table of a list in order gives to the slots in the list what the substitution
does. -/
theorem solves_tableOf {order : List Nat} (h : (σ.substitution c).Ordered order) {i : Nat}
    (hi : i ∈ order) : (σ.substitution c).Solves (fun j => (σ.tableOf c order).lookup j) i := by
  induction order with
  | nil => simp at hi
  | cons slot rest ih =>
    obtain ⟨hslot, ⟨value, hvalue, hslots⟩, hrest⟩ := h
    have htable : σ.tableOf c (slot :: rest) =
        (slot, value.term.substitute (σ.tableOf c rest)) :: σ.tableOf c rest := by
      have hlookup : σ.lookup c slot = some value.term := by
        rw [lookup, ← valueAt_substitution, hvalue, Option.map_some]
      rw [tableOf, List.foldr_cons, hlookup, ← tableOf]
    -- Below a slot of the list the first entry is never looked up.
    have hsame : ∀ j, j ≠ slot →
        (σ.tableOf c (slot :: rest)).lookup j = (σ.tableOf c rest).lookup j := by
      intro j hj
      have hbeq : (j == slot) = false := by simpa using hj
      rw [htable, List.lookup_cons, hbeq]
    have hassign : ∀ k value', k ∈ slot :: rest → (σ.substitution c).valueAt k = some value' →
        value'.term.assign (fun j => (σ.tableOf c (slot :: rest)).lookup j) =
          value'.term.assign (fun j => (σ.tableOf c rest).lookup j) := by
      intro k value' hk hvalue'
      refine Term.assign_congr fun j hj => hsame j ?_
      rintro rfl
      have hmem : j ∈ rest := by
        have hbound : ((σ.substitution c).valueAt j).isSome := by rw [hvalue]; rfl
        rcases List.mem_cons.1 hk with rfl | hk
        · rw [hvalue] at hvalue'
          cases hvalue'
          exact hslots _ hj hbound
        · exact hrest.mem_of_leads hk ⟨value', hvalue', hj⟩ hbound
      exact hslot hmem
    rw [Substitution.Solves]
    rcases List.mem_cons.1 hi with rfl | hi'
    · rw [hvalue, Option.map_some, hassign _ _ hi hvalue, htable, List.lookup_cons_self,
        Term.substitute_eq_assign]
    · have hne : i ≠ slot := fun heq => hslot (heq ▸ hi')
      obtain ⟨value', hvalue'⟩ := Option.isSome_iff_exists.1 (hrest.isSome_valueAt i hi')
      have hsolves := ih hrest hi'
      rw [Substitution.Solves, hvalue', Option.map_some] at hsolves
      rw [hsame i hne, hvalue', Option.map_some, hassign _ _ hi hvalue', hsolves]

/-- In an acyclic substitution a term is replaced by an assignment that solves all slots
it reaches. -/
theorem exists_reify_eq_assign (h : (σ.substitution c).Acyclic) (t : Term) :
    ∃ θ : Assignment, σ.reify c t = some (t.assign θ) ∧
      ∀ i, (σ.substitution c).Reaches t i → (σ.substitution c).Solves θ i := by
  obtain ⟨order, horder, hlists⟩ := exists_slotOrder h (.start σ c t)
  refine ⟨fun j => (σ.tableOf c order).lookup j, ?_, fun i hi => ?_⟩
  · rw [reify, horder, Option.map_some, Term.substitute_eq_assign]
  · have hclosed : ∀ i j, (((σ.substitution c).valueAt i).isSome → i ∈ order) →
        (σ.substitution c).Leads i j → ((σ.substitution c).valueAt j).isSome → j ∈ order := by
      intro i j hi hleads hj
      have hbound : ((σ.substitution c).valueAt i).isSome := by
        obtain ⟨value, hvalue, _⟩ := hleads
        rw [hvalue]
        rfl
      exact hlists.ordered.mem_of_leads (hi hbound) hleads hj
    obtain ⟨k, hk, hreach⟩ := hi
    have hmem := Substitution.mem_of_reflTransGen hclosed
      (hlists.visited t List.mem_cons_self k hk) hreach
    by_cases hi : i ∈ order
    · exact solves_tableOf hlists.ordered hi
    · have hfree : (σ.substitution c).valueAt i = none := by
        cases hvalue : (σ.substitution c).valueAt i with
        | none => rfl
        | some value => exact absurd (hmem (by rw [hvalue]; rfl)) hi
      rw [Substitution.Solves, hfree, Option.map_none, lookup_tableOf_of_not_mem hi]

end Store

namespace Substitution

variable {s : Substitution} {θ : Assignment}

/-- The assignment that gives to each bound slot its value with all variables replaced. -/
def solution (s : Substitution) : Assignment := fun slot =>
  (s.valueAt slot).bind fun value => s.store.reify s.context value.term

/-- The values of an acyclic substitution are put in place by an assignment that solves it. -/
theorem Acyclic.exists_reify (h : s.Acyclic) (t : Term) :
    ∃ θ : Assignment, s.store.reify s.context t = some (t.assign θ) ∧
      ∀ i, s.Reaches t i → s.Solves θ i := by
  have hexists := Store.exists_reify_eq_assign (σ := s.store) (c := s.context)
    (by rwa [substitution_store]) t
  rwa [substitution_store] at hexists

/-- An assignment that solves all slots reached from one is the solution there. -/
theorem Acyclic.eq_solution (h : s.Acyclic) {i : Nat}
    (hθ : ∀ j, Relation.ReflTransGen s.Leads i j → s.Solves θ j) : θ i = s.solution i := by
  induction i using h.induction generalizing θ with
  | step i ih =>
    have hi := hθ i .refl
    rw [Solves] at hi
    rw [hi, solution]
    cases hvalue : s.valueAt i with
    | none => rfl
    | some value =>
      obtain ⟨θ', hreify, hθ'⟩ := h.exists_reify value.term
      rw [Option.map_some, Option.bind_some, hreify]
      congr 1
      refine Term.assign_congr fun j hj => ?_
      have hleads : s.Leads i j := ⟨value, hvalue, hj⟩
      rw [ih j hleads fun k hk => hθ k (.head hleads hk), ih j hleads fun k hk => hθ' k ⟨j, hj, hk⟩]

/-- Replacing the variables of a term is applying the solution. -/
theorem Acyclic.reify_store (h : s.Acyclic) (t : Term) :
    s.store.reify s.context t = some (t.assign s.solution) := by
  obtain ⟨θ, hreify, hθ⟩ := h.exists_reify t
  rw [hreify]
  congr 1
  exact Term.assign_congr fun j hj => h.eq_solution fun k hk => hθ k ⟨j, hj, hk⟩

/-- The solution solves every slot. -/
theorem Acyclic.solves_solution (h : s.Acyclic) (i : Nat) : s.Solves s.solution i := by
  rw [Solves]
  conv_lhs => rw [solution]
  cases hvalue : s.valueAt i with
  | none => rfl
  | some value => rw [Option.bind_some, h.reify_store, Option.map_some]

/-- The solution leaves a free variable where it is. -/
theorem Acyclic.assign_of_free (h : s.Acyclic) {v : Var} (hfree : v.index.bind s.valueAt = none) :
    (Term.var v).assign s.solution = .var v := by
  cases hindex : v.index with
  | none => rw [Term.assign, hindex, Option.bind_none, Option.getD_none]
  | some slot =>
    have hsolves := h.solves_solution slot
    rw [hindex, Option.bind_some] at hfree
    rw [Solves, hfree, Option.map_none] at hsolves
    rw [Term.assign_var_of_index hindex, hsolves, Option.getD_none]

/-- Following variables does not change what the solution makes of an occurrence. -/
theorem Acyclic.assign_deref (h : s.Acyclic) (o : Occurrence) :
    (s.deref o).term.assign s.solution = o.term.assign s.solution := by
  have hwithin : ∀ hops o, (s.followWithin hops o).term.assign s.solution =
      o.term.assign s.solution := by
    intro hops
    induction hops with
    | zero => exact fun o => rfl
    | succ hops ih =>
      intro o
      cases hfollow : s.follow o with
      | none => rw [followWithin_of_settled hfollow]
      | some value =>
        rw [followWithin_of_follow hfollow, ih]
        obtain ⟨i, hi, hvalue⟩ := Option.bind_eq_some_iff.1 hfollow
        have hsolves := h.solves_solution i
        rw [Solves, hvalue, Option.map_some] at hsolves
        obtain ⟨text, node, term⟩ := o
        cases term with
        | var v => rw [Term.assign_var_of_index hi, hsolves, Option.getD_some]
        | atom | number | compound => simp [Occurrence.slot?, Term.slot?] at hi
  exact hwithin _ o

end Substitution

/-- In an acyclic substitution a store replaces the variables of a term as the solution
says. -/
theorem Store.reify_eq_solution {σ : Store} {c : Context} (h : (σ.substitution c).Acyclic)
    (t : Term) : σ.reify c t = some (t.assign (σ.substitution c).solution) := by
  rw [← h.reify_store]
  refine reify_congr (fun slot => ?_) t
  exact valueAt_eq_of_substitution_eq (σ.substitution c).substitution_store.symm slot

end ClauseResolution
