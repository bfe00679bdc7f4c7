import ClauseResolution.Proofs.Clause.Readings

/-!
# Fresh instances are variants

The variables of a clause keep their names when the clause is renamed, and move by one and the same
distance, into the slots that are allocated for them. Renaming leaves the terms alone below which no
variable is counted. Nothing is missed there, since the counts of a clause are those that were made
with it, whatever counts the head and the body had.
-/

namespace ClauseResolution

/-- The variable with its slot moved by a distance. -/
def Var.raised (base : Nat) (v : Var) : Var := ⟨v.name, v.index.map (base + ·)⟩

/-- The second terms are the first with other variables, different ones for different ones, and the
anonymous variable where it was. -/
def Term.IsVariant (ts us : List Term) : Prop :=
  ∃ f : Var → Var, f.Injective ∧ f .anonymous = .anonymous ∧ ts.map (Term.mapVars f) = us

namespace Var

variable {v : Var} {names : List String} {base slot : Nat}

/-- No two variables are raised to the same one. -/
theorem raised_injective (base : Nat) : (raised base).Injective := by
  intro v w heq
  obtain ⟨hname, hindex⟩ := Var.mk.inj heq
  have hindices : v.index = w.index :=
    Option.map_injective (fun _ _ => Nat.add_left_cancel) hindex
  cases v
  cases w
  simp_all

/-- A variable under the name of its slot is moved without another change. -/
theorem moved_eq_raised (hindex : v.index = some slot) (hname : names[slot]? = some v.name) :
    v.moved names base = v.raised base := by
  rw [moved_of_index hindex, hname, raised, hindex]
  rfl

end Var

/-- Where the variables have the names of their slots, they are moved without another change. -/
theorem Term.Named.mapVars_moved {names : List String} {t : Term} (h : t.Named names)
    (base : Nat) : t.mapVars (Var.moved names base) = t.mapVars (Var.raised base) := by
  refine Term.mapVars_congr fun v hv => ?_
  rcases h v hv with rfl | ⟨slot, hindex, hname⟩
  · rfl
  · exact Var.moved_eq_raised hindex hname

/-- The variables of a numbered term have the names of their slots. -/
theorem Numbering.named_numbered {N : Numbering} {t : Term}
    (hmem : ∀ v ∈ t.namedVars, v ∈ N.listed) : (N.numbered t).Named N.slotNames := by
  intro w hw
  rw [numbered, Term.leaves_recount] at hw
  obtain ⟨v, hleaf, rfl⟩ := Term.exists_of_mem_leaves_mapVars hw
  cases hv : v.isAnonymous with
  | true => exact Or.inl (place_anonymous hv)
  | false =>
    have hslot : N.listed[N.listed.idxOf v]? = some v :=
      List.getElem?_idxOf (hmem v (Term.mem_namedVars.2 ⟨hleaf, hv⟩))
    rw [place_named hv]
    refine Or.inr ⟨_, rfl, ?_⟩
    change (N.listed.map Var.name)[N.listed.idxOf v]? = some v.name
    rw [List.getElem?_map, hslot, Option.map_some]

namespace Clause

variable {clause : Clause} {t : Term} {names : List String} {text : Nat}

/-- A clause that is made of a term is made of a head and a body. -/
theorem isBuilt_of_ofTerm (h : ofTerm text t = .ok clause) : clause.IsBuilt := by
  unfold ofTerm at h
  split at h
  · split at h
    · exact ⟨_, _, _, h⟩
    · exact ⟨_, _, _, h⟩
  · exact ⟨_, _, _, h⟩

/-- The variables of a clause that was made have the names of their slots. -/
theorem IsBuilt.named (h : clause.IsBuilt) :
    clause.head.toTerm.Named clause.varNames ∧ clause.body.Named clause.varNames := by
  obtain ⟨text, head, body, hrule⟩ := h
  obtain ⟨hhead, hbody, hnames⟩ := numbered_of_rule hrule
  have hmem : ∀ t ∈ [head, body], ∀ v ∈ t.namedVars,
      v ∈ (Numbering.empty.after ([head, body].flatMap Term.namedVars)).listed :=
    fun t ht v hv => Numbering.mem_after.2 (Or.inr (List.mem_flatMap.2 ⟨t, ht, hv⟩))
  rw [← hnames, ← hbody]
  refine ⟨?_, Numbering.named_numbered (hmem body (by simp))⟩
  exact callable?_keeps (fun _ => Term.named_compound.2 (List.forall_mem_nil _))
    (Numbering.named_numbered (hmem head (by simp))) hhead

/-- The instance of a clause that was made of a head and a body, or of a term, has as many slots
more than the context as the clause has variables. Its head and body are those of the clause with
each variable moved by the slots there were, and nothing else changed. All variables have new slots,
apart from the anonymous one, and the instance is a variant of the clause. -/
theorem rename_isVariant (h : clause.IsBuilt ∨ ∃ text t, ofTerm text t = .ok clause) (c : Context) :
    (clause.rename c).context = ⟨c.stamp, c.top + clause.varCount⟩ ∧
    (clause.rename c).head.term = clause.head.toTerm.mapVars (Var.raised c.top) ∧
    (clause.rename c).body.term = clause.body.mapVars (Var.raised c.top) ∧
    (clause.rename c).head.term.Fresh c.top (c.top + clause.varCount) ∧
    (clause.rename c).body.term.Fresh c.top (c.top + clause.varCount) ∧
    Term.IsVariant [clause.head.toTerm, clause.body]
      [(clause.rename c).head.term, (clause.rename c).body.term] := by
  have hbuilt : clause.IsBuilt := h.elim id fun ⟨_, _, ht⟩ => isBuilt_of_ofTerm ht
  have hplaced := hbuilt.placed
  obtain ⟨hnamed, hnamed'⟩ := hbuilt.named
  have hhead : (clause.rename c).head.term = clause.head.toTerm.mapVars (Var.raised c.top) :=
    (instantiate_eq_mapVars hplaced.head c.top).trans (hnamed.mapVars_moved c.top)
  have hbody : (clause.rename c).body.term = clause.body.mapVars (Var.raised c.top) :=
    (instantiate_eq_mapVars hplaced.body c.top).trans (hnamed'.mapVars_moved c.top)
  refine ⟨rfl, hhead, hbody, hplaced.fresh_head c, hplaced.fresh_body c,
    Var.raised c.top, Var.raised_injective c.top, rfl, ?_⟩
  rw [hhead, hbody]
  rfl

/-- While the slots stay below the bound none of them starts again. -/
theorem frameBelow_eq {bound base : Nat} (h : base + clause.varCount ≤ bound) :
    clause.frameBelow bound base = clause.frame base := by
  rw [frameBelow, frame]
  refine Array.map_congr_left fun pair hmem => ?_
  have hlt := List.snd_lt_add_of_mem_zipIdx (List.mem_toArray.1 hmem)
  dsimp only at hlt ⊢
  rw [Nat.mod_eq_of_lt (hlt.trans_le (Nat.add_comm base _ ▸ h))]

/-- While a machine word counts the slots, it does not matter that it does. -/
theorem renameWord_eq {c : Context} (h : c.top + clause.varCount < slotBound) :
    clause.renameWord c = clause.rename c := by
  rw [renameWord, rename, Context.allocateWord, Context.allocate, Nat.mod_eq_of_lt h]
  dsimp only
  rw [frameBelow_eq h.le]

/-- The instance of a clause that was made of a head and a body, or of a term, as long as a machine
word counts its slots. It has as many slots more than the context as the clause has variables. Its
head and body are those of the clause with each variable moved by the slots there were, and nothing
else changed. All variables have new slots, apart from the anonymous one, and the instance is a
variant of the clause. -/
theorem renameWord_isVariant (h : clause.IsBuilt ∨ ∃ text t, ofTerm text t = .ok clause)
    (c : Context) (hroom : c.top + clause.varCount < slotBound) :
    (clause.renameWord c).context = ⟨c.stamp, c.top + clause.varCount⟩ ∧
    (clause.renameWord c).head.term = clause.head.toTerm.mapVars (Var.raised c.top) ∧
    (clause.renameWord c).body.term = clause.body.mapVars (Var.raised c.top) ∧
    (clause.renameWord c).head.term.Fresh c.top (c.top + clause.varCount) ∧
    (clause.renameWord c).body.term.Fresh c.top (c.top + clause.varCount) ∧
    Term.IsVariant [clause.head.toTerm, clause.body]
      [(clause.renameWord c).head.term, (clause.renameWord c).body.term] := by
  rw [renameWord_eq hroom]
  exact rename_isVariant h c

/-- The clause of `p(X, k(a))` and `q(X, _)`, which come with counts that are wrong. With five slots
allocated `X` moves to slot 5. -/
theorem renameWord_isVariant_miscounted :
    let x : Var := ⟨"X", none⟩
    let head : Term := .compound "p" [.var x, .compound "k" [.atom "a"] 7] 0
    let body : Term := .compound "q" [.var x, .var .anonymous] 0
    ∃ clause, rule 0 head body = .ok clause ∧
      (clause.renameWord ⟨0, 5⟩).head.term =
        .compound "p" [.var ⟨"X", some 5⟩, .compound "k" [.atom "a"] 0] 1 ∧
      (clause.renameWord ⟨0, 5⟩).body.term =
        .compound "q" [.var ⟨"X", some 5⟩, .var .anonymous] 1 := by
  intro x head body
  let clause : Clause :=
    ⟨⟨"p", [.var ⟨"X", some 0⟩, .compound "k" [.atom "a"] 0], 1⟩,
      .compound "q" [.var ⟨"X", some 0⟩, .var .anonymous] 1, ["X"], 0⟩
  have hrule : rule 0 head body = .ok clause := by with_unfolding_all rfl
  obtain ⟨_, hhead, hbody, _⟩ :=
    renameWord_isVariant (.inl ⟨0, head, body, hrule⟩) ⟨0, 5⟩ (by decide)
  exact ⟨clause, hrule, hhead.trans rfl, hbody.trans rfl⟩

/-- Where only one slot is left, the second variable of `p(X, Y)` gets slot 0, which is below all
that were allocated, and the top falls to 1. -/
theorem renameWord_wraps :
    let head : Term := .apply "p" [.var ⟨"X", none⟩, .var ⟨"Y", none⟩]
    let c : Context := (Context.empty.allocateWord (slotBound - 1)).1
    ∃ clause, rule 0 head truth = .ok clause ∧ c.top = slotBound - 1 ∧
      (clause.renameWord c).context.top = 1 ∧
      (clause.renameWord c).head.term =
        .compound "p" [.var ⟨"X", some (slotBound - 1)⟩, .var ⟨"Y", some 0⟩] 2 ∧
      ¬ (clause.renameWord c).head.term.Fresh c.top (c.top + clause.varCount) := by
  intro head c
  let clause : Clause :=
    ⟨⟨"p", [.var ⟨"X", some 0⟩, .var ⟨"Y", some 1⟩], 2⟩, truth, ["X", "Y"], 0⟩
  have hrule : rule 0 head truth = .ok clause := by with_unfolding_all rfl
  have hhead : (clause.renameWord c).head.term =
      .compound "p" [.var ⟨"X", some (slotBound - 1)⟩, .var ⟨"Y", some 0⟩] 2 := by
    decide +kernel
  refine ⟨clause, hrule, by decide +kernel, by decide +kernel, hhead, fun hfresh => ?_⟩
  rw [hhead] at hfresh
  rcases hfresh ⟨"Y", some 0⟩ (by simp) with hanonymous | ⟨slot, hle, _, hslot⟩
  · exact absurd hanonymous (by decide)
  · cases hslot
    exact absurd hle (by decide +kernel)

end Clause

end ClauseResolution
