import ClauseResolution.Proofs.Clause.ReadBack
import ClauseResolution.Proofs.Search.Pruning

/-!
# Facts and their instances

The clause of a fact keeps the arguments of the head, with slots in the place of its variables.
An instance moves all slots by one distance. So the arguments of an instance are those of the
fact under one renaming, in which variables differ exactly when they differ in name or index.
-/

namespace ClauseResolution

/-- The second terms are the first ones with other variables, the same ones exactly in the place
of variables that are equal in name and index. -/
def Term.SameUpToRenaming (ts us : List Term) : Prop :=
  ∃ f : Var → Var,
    (∀ v ∈ ts.flatMap namedVars, ∀ w ∈ ts.flatMap namedVars, ((f v).same (f w) : Prop) ↔ v = w) ∧
    List.Forall₂ (fun t u => ((t.mapVars f).same u : Prop)) ts us

namespace Term

variable {t : Term} {ts us us' : List Term} {f : Var → Var}

/-- What is the same as the second terms may take their place. -/
theorem SameUpToRenaming.trans_same (h : SameUpToRenaming ts us)
    (hsame : List.Forall₂ (fun u u' => (u.same u' : Prop)) us us') : SameUpToRenaming ts us' := by
  obtain ⟨f, hf, hsame'⟩ := h
  refine ⟨f, hf, ?_⟩
  clear hf
  induction hsame' generalizing us' with
  | nil =>
    cases hsame
    exact .nil
  | cons hfirst _ ih =>
    obtain - | ⟨hsecond, hrest⟩ := hsame
    exact .cons (same_trans hfirst hsecond) (ih hrest)

/-- A term that is clean contains no number that is not a number. -/
theorem isNaNFree_of_isClean (h : t.isClean) : t.isNaNFree := by
  rw [isClean, List.all_eq_true] at h
  rw [isNaNFree, List.all_eq_true]
  intro leaf hleaf
  have hclean := h leaf hleaf
  cases leaf with
  | number => exact hclean
  | atom | var | compound => rfl

/-- Replacing variables by variables brings in no number that is not a number. -/
theorem isNaNFree_mapVars (f : Var → Var) (t : Term) :
    (t.mapVars f).isNaNFree = t.isNaNFree := by
  rw [isNaNFree, isNaNFree, leaves_mapVars, List.all_map]
  refine congrArg (List.all t.leaves) (funext fun leaf => ?_)
  cases leaf <;> simp

/-- Counting anew is not seen when variables are replaced. -/
theorem same_mapVars_recount (f : Var → Var) (ht : t.isNaNFree) :
    (t.mapVars f).same (t.recount.mapVars f) := by
  induction t with
  | atom | number => exact same_self ht
  | var v => exact same_self rfl
  | compound functor args varCount ih =>
    rw [mapVars_compound, recount_compound, mapVars_compound, same_compound,
      List.forall₂_map_left_iff, List.forall₂_map_right_iff, List.forall₂_map_right_iff]
    exact ⟨rfl, List.forall₂_same.2 fun t hmem => ih t hmem (isNaNFree_compound.1 ht t hmem)⟩

end Term

namespace Numbering

variable {N : Numbering} {v w : Var} {t : Term}

/-- A numbered term with its slots moved is the term with each variable replaced. -/
theorem same_raised (N : Numbering) (base : Nat) (ht : t.isNaNFree) :
    (t.mapVars (Var.raised base ∘ N.place)).same ((N.numbered t).mapVars (Var.raised base)) := by
  rw [← Term.mapVars_mapVars, numbered]
  exact Term.same_mapVars_recount _ (by rwa [Term.isNaNFree_mapVars])

/-- Different variables have different slots, also after these are moved. -/
theorem raised_place_same_iff (base : Nat) (hnamed : ∀ v ∈ N.listed, v.isAnonymous = false)
    (hv : v ∈ N.listed) (hw : w ∈ N.listed) :
    ((N.place v).raised base).same ((N.place w).raised base) ↔ v = w := by
  have hindex : ∀ v ∈ N.listed, ((N.place v).raised base).index =
      some (base + N.listed.idxOf v) := fun v hv => by
    rw [place_named (hnamed v hv)]
    rfl
  rw [Var.same_iff_index (hindex v hv), hindex w hw, Option.some_inj, Nat.add_left_cancel_iff,
    eq_comm, List.idxOf_inj hv]

end Numbering

namespace Clause

variable {clause : Clause} {functor : String} {args : List Term}
  {varCount text : Nat}

/-- A compound term that is no rule makes a fact with the arguments as they are numbered. -/
theorem exists_fact (text varCount : Nat) (hneck : ¬ (functor = neck ∧ args.length = 2))
    (hclean : ∀ t ∈ args, t.isClean) :
    ∃ clause, ofTerm text (.compound functor args varCount) = .ok clause ∧ clause.IsClean ∧
      clause.isFact = true ∧ clause.head.toTerm =
        (Term.compound functor args varCount).numbering.numbered
          (.compound functor args varCount) := by
  obtain ⟨clause, hrule⟩ : ∃ clause,
      rule text (.compound functor args varCount) truth = .ok clause :=
    exists_rule_iff.2 ⟨rfl, fun _ => Term.noConfusion⟩
  obtain ⟨hhead, hbody, _⟩ := numbered_of_rule hrule
  have hnumbering : Numbering.empty.after
      ([.compound functor args varCount, truth].flatMap Term.namedVars) =
      (Term.compound functor args varCount).numbering := by
    simp [Term.numbering, Term.namedVars, truth]
  rw [hnumbering] at hhead hbody
  refine ⟨clause, (ofTerm_compound hneck).trans hrule,
    ⟨_, _, _, Term.isClean_compound.2 hclean, rfl, hrule⟩, isFact_iff.2 hbody.symm, ?_⟩
  rw [Numbering.numbered, Term.mapVars_compound, Term.recount_compound] at hhead ⊢
  rw [← Option.some.inj hhead]
  rfl

/-- The head of an instance is the head with its slots moved. -/
theorem IsBuilt.term_rename_head (h : clause.IsBuilt) (c : Context) :
    (clause.rename c).head.term = clause.head.toTerm.mapVars (Var.raised c.top) :=
  (instantiate_eq_mapVars h.placed.head c.top).trans (h.named.1.mapVars_moved c.top)

/-- The instances of a fact have its arguments, up to renaming. -/
theorem IsBuilt.exists_instance (h : clause.IsBuilt) (hclean : ∀ t ∈ args, t.isClean)
    (hhead : clause.head.toTerm =
      (Term.compound functor args varCount).numbering.numbered (.compound functor args varCount))
    (c : Context) : ∃ us n, (clause.rename c).head.term = .compound functor us n ∧
      Term.SameUpToRenaming args us := by
  let N : Numbering := (Term.compound functor args varCount).numbering
  have hterm := h.term_rename_head c
  rw [hhead, Numbering.numbered, Term.mapVars_compound, Term.recount_compound,
    Term.mapVars_compound, List.map_map, List.map_map] at hterm
  refine ⟨_, _, hterm, Var.raised c.top ∘ N.place, fun v hv w hw => ?_, ?_⟩
  · rw [← Term.namedVars_compound functor args varCount, ← Term.mem_numbering] at hv hw
    exact Numbering.raised_place_same_iff _ (Term.named_numbering _) hv hw
  · exact List.forall₂_map_right_iff.2 (List.forall₂_same.2 fun t ht =>
      N.same_raised c.top (Term.isNaNFree_of_isClean (hclean t ht)))

/-- A clause is for the predicate of its instances. -/
theorem key_of_term_rename_head {us : List Term} {n : Nat} {c : Context}
    (h : (clause.rename c).head.term = .compound functor us n) :
    clause.key = indicator functor us.length := by
  obtain ⟨us', _, hterm, harity⟩ := clause.exists_term_rename_head c
  obtain ⟨hfunctor, hus, _⟩ := Term.compound.inj (h.symm.trans hterm)
  rw [key, Compound.indicator, hfunctor, hus, harity]

end Clause

end ClauseResolution
