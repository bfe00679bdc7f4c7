import ClauseResolution.Proofs.Clause.Filling

/-!
# Normalized terms

Normalization gives slots to the variables of a term in the order in which they occur first, so
the numbered variables are the variables of the term without repetitions. They stand in the
normalized term in that order too, which is why nothing changes when it is normalized again.
-/

namespace ClauseResolution

/-- Repetitions are the same before and after a map that keeps different elements different. -/
theorem eraseDups_map {α β : Type} [DecidableEq α] [DecidableEq β] {f : α → β} :
    ∀ {as : List α}, Set.InjOn f {a | a ∈ as} → (as.map f).eraseDups = as.eraseDups.map f
  | [], _ => rfl
  | a :: as, hf => by
    have hother : (as.map f).filter (fun b => !b == f a) = (as.filter fun b => !b == a).map f := by
      rw [List.filter_map]
      refine congrArg (List.map f) (List.filter_congr fun b hb => ?_)
      have heq : f b = f a ↔ b = a := hf.eq_iff (List.mem_cons_of_mem a hb) List.mem_cons_self
      simp [heq]
    have hrest : Set.InjOn f {b | b ∈ as.filter fun b => !b == a} :=
      hf.mono fun b hb => List.mem_cons_of_mem a (List.mem_of_mem_filter hb)
    rw [List.map_cons, List.eraseDups_cons, List.eraseDups_cons, hother, eraseDups_map hrest,
      List.map_cons]
termination_by as => as.length
decreasing_by exact Nat.lt_succ_of_le (List.length_filter_le ..)

namespace Numbering

variable {n : Numbering} {v : Var} {t : Term}

/-- The variables that are numbered are those that occur, without repetitions. -/
theorem listed_after_empty (vs : List Var) : (empty.after vs).listed = vs.eraseDups := by
  induction vs using List.reverseRecOn with
  | nil => rfl
  | append_singleton vs v ih =>
    have hlast : (empty.after (vs ++ [v])).listed = ((empty.after vs).slot v).2.listed := by
      rw [after_append, after_cons]
      rfl
    rw [hlast, listed_slot, ih, List.eraseDups_append]
    by_cases hv : v ∈ vs <;> simp [List.removeAll, List.mem_eraseDups, hv, List.eraseDups_cons]

/-- The slots that are in use are those below the number of variables. -/
theorem map_idxOf_listed (h : n.listed.Nodup) :
    n.listed.map n.listed.idxOf = List.range n.listed.length := by
  refine List.ext_getElem (by simp) fun i hi hi' => ?_
  simp [h.idxOf_getElem]

/-- A variable that has its slot is no anonymous one if it was none before. -/
theorem isAnonymous_place (n : Numbering) (v : Var) : (n.place v).isAnonymous = v.isAnonymous := by
  cases hv : v.isAnonymous with
  | true => rw [place_anonymous hv]; rfl
  | false => rw [place_named hv]; exact hv

/-- Different variables keep different slots. -/
theorem injOn_place (hnamed : ∀ v ∈ n.listed, v.isAnonymous = false) :
    Set.InjOn n.place {v | v ∈ n.listed} := by
  intro v hv w hw heq
  rw [place_named (hnamed v hv), place_named (hnamed w hw)] at heq
  exact (List.idxOf_inj hv).1 (Option.some.inj (Var.mk.inj heq).2)

/-- The numbered variables with their slots. -/
theorem vars_eq_map_place (h : n.listed.Nodup) (hnamed : ∀ v ∈ n.listed, v.isAnonymous = false) :
    n.vars = n.listed.map n.place := by
  refine List.ext_getElem (by simp [vars, listed]) fun i hi hi' => ?_
  have hlt : i < n.listed.length := by simpa using hi'
  rw [List.getElem_map, place_named (hnamed _ (List.getElem_mem hlt)), h.idxOf_getElem]
  simp [vars, listed]

/-- The variables of a numbered term, from left to right. -/
theorem namedVars_numbered (n : Numbering) (t : Term) :
    (n.numbered t).namedVars = t.namedVars.map n.place := by
  rw [Term.namedVars, Term.namedVars, numbered, Term.leaves_recount, Term.leaves_mapVars,
    List.filterMap_map, List.map_filterMap]
  refine List.filterMap_congr fun leaf _ => ?_
  cases leaf with
  | atom | number | compound => simp
  | var v => cases hv : v.isAnonymous <;> simp [isAnonymous_place, hv]

end Numbering

namespace Term

variable {t : Term} {v : Var}

/-- The numbering of the variables of a term. -/
def numbering (t : Term) : Numbering := Numbering.empty.after t.namedVars

/-- The numbering of a term lists its named variables, each of them where it first occurs. -/
theorem listed_numbering (t : Term) : t.numbering.listed = t.namedVars.eraseDups :=
  Numbering.listed_after_empty _

/-- The numbering of a term lists no variable twice. -/
theorem nodup_numbering (t : Term) : t.numbering.listed.Nodup :=
  Numbering.nodup_after (n := .empty) List.nodup_nil _

/-- The numbering of a term lists exactly its named variables. -/
theorem mem_numbering : v ∈ t.numbering.listed ↔ v ∈ t.namedVars := by
  rw [listed_numbering, List.mem_eraseDups]

/-- The numbering of a term lists no anonymous variable. -/
theorem named_numbering (t : Term) : ∀ v ∈ t.numbering.listed, v.isAnonymous = false :=
  fun _ hv => (mem_namedVars.1 (mem_numbering.1 hv)).2

/-- A term is normalized by the numbering of its variables. -/
theorem normalize_eq (t : Term) : t.normalize = ⟨t.numbering.numbered t, t.numbering.vars⟩ := by
  have hstate : (Numbering.empty.number t).2 = t.numbering := Numbering.number_snd t _
  have hterm : (Numbering.empty.number t).1 = t.numbering.numbered t :=
    Numbering.number_eq t List.prefix_rfl
  rw [← hterm, ← hstate]
  rfl

/-- The variables that are numbered when a normalized term is normalized again. -/
theorem listed_numbering_numbered (t : Term) :
    (t.numbering.numbered t).numbering.listed = t.numbering.listed.map t.numbering.place := by
  rw [listed_numbering, Numbering.namedVars_numbered, listed_numbering]
  refine eraseDups_map ((Numbering.injOn_place t.named_numbering).mono fun v hv => ?_)
  exact mem_numbering.2 hv

/-- A variable that has its slot gets it again. -/
theorem place_place (hv : v.isAnonymous = true ∨ v ∈ t.namedVars) :
    (t.numbering.numbered t).numbering.place (t.numbering.place v) = t.numbering.place v := by
  rcases hv with hv | hv
  · rw [Numbering.place_anonymous hv]
    exact Numbering.place_anonymous rfl
  · have hnamed := (mem_namedVars.1 hv).2
    have hlt : t.numbering.listed.idxOf v < t.numbering.listed.length :=
      List.idxOf_lt_length_of_mem (mem_numbering.2 hv)
    have hnodup := (t.numbering.numbered t).nodup_numbering
    have hslot : (t.numbering.numbered t).numbering.listed.idxOf (t.numbering.place v) =
        t.numbering.listed.idxOf v := by
      rw [listed_numbering_numbered] at hnodup ⊢
      have hat := hnodup.idxOf_getElem (t.numbering.listed.idxOf v) (by rwa [List.length_map])
      rwa [List.getElem_map, List.getElem_idxOf] at hat
    rw [Numbering.place_named (by rw [Numbering.isAnonymous_place, hnamed]), hslot,
      Numbering.place_named hnamed]

/-- A normalized term is normalized to itself. -/
theorem normalize_numbered (t : Term) : (t.numbering.numbered t).normalize = t.normalize := by
  have hterm : (t.numbering.numbered t).numbering.numbered (t.numbering.numbered t) =
      t.numbering.numbered t := by
    conv_lhs => rw [Numbering.numbered]; arg 1; arg 2; rw [Numbering.numbered]
    rw [recount_mapVars_recount, mapVars_mapVars, Numbering.numbered]
    refine congrArg recount (mapVars_congr fun v hv => place_place ?_)
    cases hnamed : v.isAnonymous with
    | true => exact Or.inl rfl
    | false => exact Or.inr (mem_namedVars.2 ⟨hv, hnamed⟩)
  have hvars : (t.numbering.numbered t).numbering.vars = t.numbering.vars := by
    rw [Numbering.vars_eq_map_place (nodup_numbering _) (named_numbering _),
      listed_numbering_numbered, List.map_map,
      Numbering.vars_eq_map_place t.nodup_numbering t.named_numbering]
    exact List.map_congr_left fun v hv => place_place (Or.inr (mem_numbering.1 hv))
  rw [normalize_eq, normalize_eq, hterm, hvars]

/-- A normalized term has the shape of the term. The anonymous variable stays, and any other
variable gets a slot under its own name, the same one at two places exactly when name and index
were the same; the variables are counted at every compound term. The slots are numbered from zero
in the order in which they stand in the term first, and the variables that come with the term are
its own in this order, each with its place as index. Normalizing again changes nothing. -/
theorem normalize_correct (t : Term) :
    (∃ slotOf : Var → Nat,
      (∀ v ∈ t.namedVars, ∀ w ∈ t.namedVars,
        slotOf v = slotOf w ↔ v.name = w.name ∧ v.index = w.index) ∧
      t.normalize.term = (t.mapVars fun v =>
        if v.isAnonymous then .anonymous else ⟨v.name, some (slotOf v)⟩).recount) ∧
    t.normalize.term.slots.eraseDups = List.range t.normalize.vars.length ∧
    t.normalize.term.namedVars.eraseDups = t.normalize.vars ∧
    t.normalize.vars.map Var.index = (List.range t.normalize.vars.length).map some ∧
    t.normalize.term.normalize = t.normalize := by
  have hvars := Numbering.vars_eq_map_place t.nodup_numbering t.named_numbering
  have hlength : t.numbering.vars.length = t.numbering.listed.length := by
    rw [hvars, List.length_map]
  have hslots := Numbering.map_idxOf_listed t.nodup_numbering
  rw [normalize_eq]
  dsimp only
  refine ⟨⟨t.numbering.listed.idxOf, fun v hv w _ => ?_, rfl⟩, ?_, ?_, ?_, ?_⟩
  · rw [List.idxOf_inj (mem_numbering.2 hv)]
    obtain ⟨name, index⟩ := v
    obtain ⟨name', index'⟩ := w
    exact Var.mk.injEq ..▸ Iff.rfl
  · rw [Numbering.slots_numbered, hlength, ← hslots, listed_numbering]
    refine eraseDups_map fun v hv w _ heq => ?_
    exact (List.idxOf_inj (List.mem_eraseDups.2 hv)).1 heq
  · rw [← listed_numbering, listed_numbering_numbered, hvars]
  · rw [hlength, ← hslots, hvars, List.map_map, List.map_map]
    refine List.map_congr_left fun v hv => ?_
    rw [Function.comp_apply, Numbering.place_named (t.named_numbering v hv)]
    rfl
  · rw [normalize_numbered, normalize_eq]

end Term

end ClauseResolution
