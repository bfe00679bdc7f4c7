import ClauseResolution.Proofs.Substitution.Chain
import ClauseResolution.Term.Leaves
import Mathlib.Data.List.Nodup
import Mathlib.Order.Nat

/-!
# Following variables to their values

A variable is followed from binding to binding until a free variable or another term
stands at the root. Where this ends at all, it ends after no more steps than there are
bindings, since no slot is met twice. It then ends at the same occurrence in every store
that holds the substitution. Binding a free variable to what is followed already keeps
this property.
-/

namespace ClauseResolution

/-- The slot of the variable that stands here, if it is a variable with a slot. -/
def Occurrence.slot? (o : Occurrence) : Option Nat := o.term.slot?

namespace Substitution

variable {s : Substitution} {o : Occurrence} {slot : Nat}

/-- The value bound directly to a slot. -/
def valueAt (s : Substitution) (slot : Nat) : Option Occurrence := s.bindings.lookup slot

/-- The substitution with one more binding. -/
def extend (s : Substitution) (slot : Nat) (value : Occurrence) : Substitution :=
  ⟨(slot, value) :: s.bindings, s.top⟩

/-- The value of the variable at the root, if it is bound. -/
def follow (s : Substitution) (o : Occurrence) : Option Occurrence := o.slot?.bind s.valueAt

/-- Follows at most `hops` bindings. -/
def followWithin (s : Substitution) : Nat → Occurrence → Occurrence
  | 0, o => o
  | hops + 1, o =>
    match s.follow o with
    | some value => followWithin s hops value
    | none => o

/-- What an occurrence stands for at its root. -/
def deref (s : Substitution) (o : Occurrence) : Occurrence := s.followWithin s.bindings.length o

/-- No bound variable stands at the root. -/
def Settled (s : Substitution) (o : Occurrence) : Prop := s.follow o = none

/-- Following bindings from variable to variable ends, wherever it starts. -/
def Settles (s : Substitution) : Prop := ∀ o, ∃ hops, s.Settled (s.followWithin hops o)

/-- A settled occurrence is followed no further. -/
theorem followWithin_of_settled (h : s.Settled o) (hops : Nat) : s.followWithin hops o = o := by
  cases hops with
  | zero => rfl
  | succ hops => rw [followWithin, h]

/-- Following a variable takes the first of the hops. -/
theorem followWithin_of_follow {value : Occurrence} (h : s.follow o = some value) (hops : Nat) :
    s.followWithin (hops + 1) o = s.followWithin hops value := by
  rw [followWithin, h]

/-- Hops are made one after the other. -/
theorem followWithin_add (s : Substitution) (m n : Nat) (o : Occurrence) :
    s.followWithin (m + n) o = s.followWithin n (s.followWithin m o) := by
  induction m generalizing o with
  | zero => rw [Nat.zero_add, followWithin]
  | succ m ih =>
    cases h : s.follow o with
    | none => rw [followWithin_of_settled h, followWithin_of_settled h, followWithin_of_settled h]
    | some value =>
      rw [Nat.succ_add, followWithin_of_follow h, followWithin_of_follow h, ih]

/-- One binding more is followed at the end as well as at the start. -/
theorem followWithin_succ_of_follow {hops : Nat} {value : Occurrence}
    (h : s.follow (s.followWithin hops o) = some value) : s.followWithin (hops + 1) o = value := by
  rw [followWithin_add, followWithin_of_follow h, followWithin]

/-- A walk that ends is no longer than the list of bindings: were a slot met twice, the
walk would go round for ever. -/
theorem settled_deref_of_exists (h : ∃ hops, s.Settled (s.followWithin hops o)) :
    s.Settled (s.deref o) := by
  classical
  let least := Nat.find h
  have hleast : s.Settled (s.followWithin least o) := Nat.find_spec h
  have hbefore : ∀ k < least, ∃ slot value, (s.followWithin k o).slot? = some slot ∧
      s.valueAt slot = some value ∧ s.followWithin (k + 1) o = value := by
    intro k hk
    have hnot : s.follow (s.followWithin k o) ≠ none := Nat.find_min h hk
    obtain ⟨value, hvalue⟩ := Option.ne_none_iff_exists'.1 hnot
    obtain ⟨slot, hslot, hat⟩ := Option.bind_eq_some_iff.1 hvalue
    exact ⟨slot, value, hslot, hat, followWithin_succ_of_follow hvalue⟩
  have hdistinct : ∀ i j, i < j → j < least →
      (s.followWithin i o).slot? ≠ (s.followWithin j o).slot? := by
    intro i j hij hj heq
    obtain ⟨slot, value, hslot, hat, hnext⟩ := hbefore i (by omega)
    obtain ⟨slot', value', hslot', hat', hnext'⟩ := hbefore j hj
    have hsame : value = value' := by
      rw [hslot, hslot'] at heq
      rw [Option.some.inj heq, hat'] at hat
      exact (Option.some.inj hat).symm
    have hshort : s.followWithin least o = s.followWithin (i + 1 + (least - (j + 1))) o := by
      rw [followWithin_add, hnext, hsame, ← hnext', ← followWithin_add]
      congr 1
      omega
    rw [hshort] at hleast
    exact Nat.find_min h (show i + 1 + (least - (j + 1)) < least by omega) hleast
  have hle : least ≤ s.bindings.length := by
    let slots := (List.range least).map fun k => (s.followWithin k o).slot?.getD 0
    have hnodup : slots.Nodup := by
      refine List.Nodup.map_on ?_ List.nodup_range
      intro i hi j hj heq
      rw [List.mem_range] at hi hj
      obtain ⟨slot, _, hslot, _, _⟩ := hbefore i hi
      obtain ⟨slot', _, hslot', _, _⟩ := hbefore j hj
      rw [hslot, hslot', Option.getD_some, Option.getD_some] at heq
      rcases Nat.lt_trichotomy i j with hij | hij | hij
      · exact absurd (hslot.trans (heq ▸ hslot'.symm)) (hdistinct i j hij hj)
      · exact hij
      · exact absurd (hslot'.trans (heq ▸ hslot.symm)) (hdistinct j i hij hi)
    have hsubset : slots ⊆ s.bindings.map Prod.fst := by
      intro slot hslot
      obtain ⟨k, hk, rfl⟩ := List.mem_map.1 hslot
      obtain ⟨slot, value, hslot, hat, _⟩ := hbefore k (List.mem_range.1 hk)
      obtain ⟨newer, older, hbindings, _⟩ := List.lookup_eq_some_iff.1 hat
      simp [hslot, hbindings]
    have hlength := (hnodup.subperm hsubset).length_le
    simpa [slots] using hlength
  rw [deref, ← Nat.add_sub_cancel' hle, followWithin_add, followWithin_of_settled hleast]
  exact hleast

/-- A substitution that settles brings every occurrence to its end. -/
theorem Settles.settled_deref (h : s.Settles) (o : Occurrence) : s.Settled (s.deref o) :=
  settled_deref_of_exists (h o)

/-- A walk of any length that ends gives the same occurrence. -/
theorem Settles.followWithin_eq_deref (h : s.Settles) {hops : Nat}
    (hhops : s.bindings.length ≤ hops) (o : Occurrence) : s.followWithin hops o = s.deref o := by
  rw [← Nat.add_sub_cancel' hhops, followWithin_add]
  exact followWithin_of_settled (h.settled_deref o) _

/-- Following what is followed already changes nothing. -/
theorem deref_of_settled (h : s.Settled o) : s.deref o = o := followWithin_of_settled h _

/-- Where equal terms are followed to there are equal terms. -/
theorem deref_congr {o' : Occurrence} (h : o.term = o'.term) :
    (s.deref o).term = (s.deref o').term := by
  have hfollow : s.follow o = s.follow o' := by
    rw [follow, follow, Occurrence.slot?, Occurrence.slot?, h]
  rw [deref, deref]
  cases s.bindings.length with
  | zero => exact h
  | succ hops =>
    rw [followWithin, followWithin, hfollow]
    cases s.follow o' with
    | none => exact h
    | some value => rfl

/-- Following one binding does not change where following ends. -/
theorem Settles.deref_of_follow {value : Occurrence} (h : s.Settles)
    (hfollow : s.follow o = some value) : s.deref o = s.deref value := by
  rw [← h.followWithin_eq_deref (Nat.le_succ _) o, followWithin_of_follow hfollow, deref]

/-- The empty substitution settles. -/
theorem settles_of_bindings_eq_nil (h : s.bindings = []) : s.Settles := by
  intro o
  refine ⟨0, ?_⟩
  cases hslot : o.slot? <;> simp [Settled, follow, followWithin, valueAt, h, hslot]

/-- Where variables are followed to does not depend on the slots allocated. -/
theorem followWithin_withTop (s : Substitution) (top hops : Nat) (o : Occurrence) :
    followWithin ⟨s.bindings, top⟩ hops o = s.followWithin hops o := by
  induction hops generalizing o with
  | zero => rfl
  | succ hops ih =>
    have hnext : follow ⟨s.bindings, top⟩ o = s.follow o := rfl
    rw [followWithin, followWithin, hnext]
    cases s.follow o with
    | none => rfl
    | some value => exact ih value

/-- What a variable stands for does not depend on the top. -/
theorem deref_withTop (s : Substitution) (top : Nat) (o : Occurrence) :
    deref ⟨s.bindings, top⟩ o = s.deref o := s.followWithin_withTop top _ o

/-- Whether a substitution settles does not depend on the slots allocated. -/
theorem Settles.withTop (h : s.Settles) (top : Nat) : Settles ⟨s.bindings, top⟩ := by
  intro o
  obtain ⟨hops, hend⟩ := h o
  exact ⟨hops, by rw [followWithin_withTop]; exact hend⟩

/-- The new slot has the new value, and the other slots have theirs. -/
theorem valueAt_extend (s : Substitution) (slot other : Nat) (value : Occurrence) :
    (s.extend slot value).valueAt other = if other = slot then some value else s.valueAt other := by
  rw [valueAt, extend, List.lookup_cons]
  by_cases h : other = slot
  · simp [h]
  · rw [beq_false_of_ne h, if_neg h]
    rfl

/-- A new binding is not met on the way to a settled occurrence. -/
theorem follow_extend (s : Substitution) (value : Occurrence) (hslot : o.slot? ≠ some slot) :
    (s.extend slot value).follow o = s.follow o := by
  rw [follow, follow]
  cases h : o.slot? with
  | none => rfl
  | some other =>
    rw [h] at hslot
    have hne : other ≠ slot := fun heq => hslot (congrArg some heq)
    rw [Option.bind_some, Option.bind_some, valueAt_extend, if_neg hne]

/-- Binding a slot to a settled value other than its own variable keeps the end of every
walk. -/
theorem Settles.extend (h : s.Settles) {value : Occurrence} (hvalue : s.Settled value)
    (hself : value.slot? ≠ some slot) : (s.extend slot value).Settles := by
  intro o
  obtain ⟨hops, hend⟩ := h o
  -- The walk in the longer substitution first goes the way of the shorter one.
  have hsame : (s.extend slot value).followWithin hops o = s.followWithin hops o ∨
      ∃ k, (s.extend slot value).followWithin k o = value := by
    clear hend
    induction hops generalizing o with
    | zero => exact Or.inl rfl
    | succ hops ih =>
      by_cases hslot : o.slot? = some slot
      · refine Or.inr ⟨1, ?_⟩
        have hnext : (s.extend slot value).follow o = some value := by
          rw [follow, hslot, Option.bind_some, valueAt_extend, if_pos rfl]
        rw [followWithin_of_follow hnext, followWithin]
      · have hstep := follow_extend s value hslot
        cases hfollow : s.follow o with
        | none =>
          rw [followWithin_of_settled hfollow, followWithin_of_settled (hstep.trans hfollow)]
          exact Or.inl rfl
        | some next =>
          rw [followWithin_of_follow hfollow, followWithin_of_follow (hstep.trans hfollow)]
          rcases ih next with heq | ⟨k, hk⟩
          · exact Or.inl heq
          · exact Or.inr ⟨k + 1, by rw [followWithin_of_follow (hstep.trans hfollow), hk]⟩
  have hvalue' : (s.extend slot value).Settled value := (follow_extend s value hself).trans hvalue
  rcases hsame with heq | ⟨k, hk⟩
  · by_cases hslot : (s.followWithin hops o).slot? = some slot
    · refine ⟨hops + 1, ?_⟩
      have hnext : (s.extend slot value).follow ((s.extend slot value).followWithin hops o) =
          some value := by
        rw [heq, follow, hslot, Option.bind_some, valueAt_extend, if_pos rfl]
      rw [followWithin_succ_of_follow hnext]
      exact hvalue'
    · refine ⟨hops, ?_⟩
      rw [heq]
      exact (follow_extend s value hslot).trans hend
  · exact ⟨k, by rw [hk]; exact hvalue'⟩

end Substitution

namespace Store

variable {σ : Store} {c : Context}

/-- A context binds what its substitution binds. -/
theorem valueAt_substitution (σ : Store) (c : Context) (slot : Nat) :
    (σ.substitution c).valueAt slot = σ.valueAt c slot := (σ.valueAt_eq_lookup c slot).symm

/-- Following the variable at the root is the same in a store. -/
theorem derefWithin_eq_followWithin (σ : Store) (c : Context) (hops : Nat) (o : Occurrence) :
    σ.derefWithin c hops o = (σ.substitution c).followWithin hops o := by
  induction hops generalizing o with
  | zero => rfl
  | succ hops ih =>
    obtain ⟨text, node, term⟩ := o
    cases term with
    | var v =>
      have hfollow : (σ.substitution c).follow ⟨text, node, .var v⟩ = σ.valueOf c v := by
        rw [valueOf, Substitution.follow, Occurrence.slot?, Term.slot?]
        exact congrArg v.index.bind (funext (σ.valueAt_substitution c))
      cases hvalue : σ.valueOf c v with
      | none =>
        rw [Substitution.followWithin_of_settled (hfollow.trans hvalue)]
        simp [derefWithin, hvalue]
      | some value =>
        rw [Substitution.followWithin_of_follow (hfollow.trans hvalue)]
        simp only [derefWithin, hvalue, ih]
    | atom _ | number _ | compound _ _ _ =>
      simp [derefWithin, Substitution.followWithin, Substitution.follow, Occurrence.slot?,
        Term.slot?]

/-- A store follows variables as the substitution it holds. -/
theorem deref_eq (h : (σ.substitution c).Settles) (o : Occurrence) :
    σ.deref c o = (σ.substitution c).deref o := by
  rw [deref, derefWithin_eq_followWithin]
  exact h.followWithin_eq_deref (σ.length_chain_le c.stamp) o

/-- The context is one of the store: its entry is there. -/
def Holds (σ : Store) (c : Context) : Prop := c.stamp ≤ σ.size

/-- A store that was only added to. -/
structure Grows (σ τ : Store) : Prop where
  /-- The old entries are still there. -/
  agree : σ.AgreeBelow τ σ.size
  /-- There are no fewer entries than before. -/
  size_le : σ.size ≤ τ.size

namespace Grows

variable {τ υ : Store}

/-- A store grows to itself. -/
theorem refl (σ : Store) : σ.Grows σ := ⟨.refl σ _, le_refl _⟩

/-- A store that grows and grows again has grown. -/
theorem trans (h : σ.Grows τ) (h' : τ.Grows υ) : σ.Grows υ :=
  ⟨h.agree.trans (h'.agree.mono h.size_le), h.size_le.trans h'.size_le⟩

end Grows

/-- The contexts of a store are contexts of the store that grew from it. -/
theorem Holds.of_grows {τ : Store} (h : σ.Holds c) (hgrows : σ.Grows τ) : τ.Holds c :=
  Nat.le_trans h hgrows.size_le

/-- Binding a named variable with a slot to something else adds one entry. -/
theorem bind_of_slot {v : Var} {value : Occurrence} {slot : Nat} (hindex : v.index = some slot)
    (hv : v.isAnonymous = false) (hself : value.slot? ≠ some slot) :
    σ.bind c v value = ((σ.push ⟨slot, value, c.stamp⟩).1, ⟨σ.size + 1, c.top⟩) := by
  obtain ⟨text, node, term⟩ := value
  cases term <;> simp_all [bind, push, size, Occurrence.slot?, Term.slot?]

/-- Binding either changes nothing, or adds one entry for a named variable with a slot. -/
theorem bind_cases (h : σ.Holds c) (v : Var) (value : Occurrence) :
    (σ.bind c v value = (σ, c) ∧
      (v.index = none ∨ v.isAnonymous = true ∨ value.slot? = v.index)) ∨
    ∃ slot τ d, σ.bind c v value = (τ, d) ∧ v.index = some slot ∧ v.isAnonymous = false ∧
      value.slot? ≠ some slot ∧ σ.Grows τ ∧ τ.size = σ.size + 1 ∧ τ.Holds d ∧
      τ.substitution d = (σ.substitution c).extend slot value := by
  cases hindex : v.index with
  | none => exact Or.inl ⟨by rw [bind, hindex], Or.inl rfl⟩
  | some slot =>
    by_cases hanonymous : v.isAnonymous = true
    · exact Or.inl ⟨by rw [bind, hindex]; simp [hanonymous], Or.inr (Or.inl hanonymous)⟩
    · by_cases hself : value.slot? = some slot
      · refine Or.inl ⟨?_, Or.inr (Or.inr hself)⟩
        obtain ⟨text, node, term⟩ := value
        cases term <;> simp_all [bind, Occurrence.slot?, Term.slot?]
      · right
        have hbind : σ.bind c v value = _ := bind_of_slot hindex (by simpa using hanonymous) hself
        refine ⟨slot, _, _, hbind, rfl, by simpa using hanonymous, hself,
          ⟨σ.agreeBelow_push _, by rw [size_push]; omega⟩, σ.size_push _, ?_, ?_⟩
        · rw [Holds, size_push]
        · have hchain := σ.chain_push ⟨slot, value, c.stamp⟩ h
          rw [substitution, hchain]
          rfl

end Store

end ClauseResolution
