import ClauseResolution.Clause.Renaming
import ClauseResolution.Proofs.Term.Assignment
import ClauseResolution.Proofs.Term.Scope

/-!
# Instances of clauses

Numbering the variables of a term gives each of them a slot below the count, unless it is
anonymous, and counts no variables below a compound term only where there are none. So a
clause is renamed throughout: the variables of the renamed clause have slots from a base
on, and what an assignment makes of it is an instance of the clause as it was written.
-/

namespace ClauseResolution

namespace Term

variable {θ : Assignment}

/-- The term contains no anonymous variable and no number that is not a number. -/
def isClean (t : Term) : Bool :=
  t.leaves.all fun
    | .number value => !value.isNaN
    | .var v => !v.isAnonymous
    | _ => true

/-- A compound term is clean when its arguments are. -/
@[simp] theorem isClean_compound {f : String} {as : List Term} {m : Nat} :
    (compound f as m).isClean ↔ ∀ t ∈ as, t.isClean := by
  simp [isClean]

/-- No slots lie below a compound term that counts no variables, at any depth. -/
inductive Tallied : Term → Prop
  /-- An atom. -/
  | atom (name : String) : Tallied (.atom name)
  /-- A number. -/
  | number (value : Number) : Tallied (.number value)
  /-- A variable. -/
  | var (v : Var) : Tallied (.var v)
  /-- A compound term. -/
  | compound {f : String} {as : List Term} {m : Nat} (hargs : ∀ t ∈ as, Tallied t)
      (hcount : m = 0 → ∀ t ∈ as, t.slots = []) : Tallied (.compound f as m)

/-- The variables of a term have slots below a count, or are anonymous. -/
structure Placed (t : Term) (count : Nat) : Prop where
  /-- The slots are below the count. -/
  scope : t.Scoped count
  /-- Variables are counted wherever there are any. -/
  tallied : t.Tallied

/-- Placed below a bound is placed below every larger one. -/
theorem Placed.mono {t : Term} {m n : Nat} (h : t.Placed m) (hle : m ≤ n) : t.Placed n :=
  ⟨h.scope.mono hle, h.tallied⟩

/-- The variables of a term are numbered below a count. -/
structure Numbered (t : Term) (count : Nat) : Prop where
  /-- The variables are named and have slots, and no number is not a number. -/
  plain : t.isPlain
  /-- Variables are counted wherever there are any. -/
  tallied : t.Tallied
  /-- The slots are below the count. -/
  bound : ∀ slot ∈ t.slots, slot < count

/-- A plain term whose variables have slots is numbered. -/
theorem Placed.numbered {t : Term} {count : Nat} (h : t.Placed count) (hplain : t.isPlain) :
    t.Numbered count :=
  ⟨hplain, h.tallied, fun _ hslot => h.scope.slot_lt hslot⟩

/-- The arguments of a numbered term are numbered. -/
theorem Numbered.arg {f : String} {as : List Term} {m count : Nat} {t : Term}
    (h : (compound f as m).Numbered count) (ht : t ∈ as) : t.Numbered count := by
  refine ⟨isPlain_of_mem_args h.plain ht, ?_, fun slot hslot => ?_⟩
  · cases h.tallied with
    | compound hargs _ => exact hargs t ht
  · exact h.bound slot (mem_slots_compound.2 ⟨t, ht, hslot⟩)

section Frame

variable {frame : Array Term}

/-- An atom has no variables to replace. -/
@[simp] theorem instantiate_atom (name : String) : (atom name).instantiate frame = .atom name := by
  rw [instantiate, fold_eq_visit]
  rfl

/-- A number has no variables to replace. -/
@[simp] theorem instantiate_number (value : Number) :
    (number value).instantiate frame = .number value := by
  rw [instantiate, fold_eq_visit]
  rfl

/-- A variable with a slot is replaced by what the frame has there, and any other one stays. -/
theorem instantiate_var (v : Var) :
    (var v).instantiate frame = (v.index.bind (frame[·]?)).getD (.var v) := by
  rw [instantiate, fold_eq_visit]
  rfl

/-- Only where variables are counted is a compound term built anew. -/
theorem instantiate_compound (f : String) (as : List Term) (m : Nat) :
    (compound f as m).instantiate frame =
      .compound f (if 0 < m then as.map (instantiate frame) else as) m := by
  rw [instantiate, fold_eq_visit, Visitor.visit_eq]
  by_cases hm : 0 < m
  · simp only [if_pos hm, Visitor.visitAll_eq_map, args]
    congr 1
    refine List.map_congr_left fun t _ => ?_
    rw [instantiate, fold_eq_visit]
  · simp only [if_neg hm]

/-- What an assignment makes of an instance, the assignment of its values makes of the
term itself. -/
theorem assign_instantiate {t : Term} (h : t.Numbered frame.size) :
    (t.instantiate frame).assign θ = t.assign fun slot => (frame[slot]?).map (assign θ) := by
  induction t with
  | atom | number => simp
  | var v =>
    cases hv : v.index with
    | none => simp [instantiate_var, hv, assign]
    | some slot =>
      have hlt := h.bound slot (mem_slots_var.2 hv)
      rw [instantiate_var, hv, Option.bind_some, assign_var_of_index hv,
        Array.getElem?_eq_getElem hlt, Option.getD_some, Option.map_some, Option.getD_some]
  | compound f as m ih =>
    rw [instantiate_compound, assign_compound, assign_compound]
    congr 1
    split
    · rw [List.map_map]
      exact List.map_congr_left fun t ht => ih t ht (h.arg ht)
    · next hm =>
      refine List.map_congr_left fun t ht => assign_congr fun slot hslot => ?_
      cases h.tallied with
      | compound _ hcount =>
        rw [hcount (by omega) t ht] at hslot
        cases hslot

/-- An instance by plain terms is plain. -/
theorem isPlain_instantiate {t : Term} (h : t.isPlain) (hframe : ∀ u ∈ frame, u.isPlain) :
    (t.instantiate frame).isPlain := by
  induction t with
  | atom | number => simpa using h
  | var v =>
    rw [instantiate_var]
    cases hvalue : v.index.bind (frame[·]?) with
    | none => exact h
    | some u =>
      obtain ⟨slot, _, hu⟩ := Option.bind_eq_some_iff.1 hvalue
      exact hframe u (Array.mem_of_getElem? hu)
  | compound f as m ih =>
    rw [isPlain_compound] at h
    rw [instantiate_compound, isPlain_compound]
    split
    · intro t ht
      obtain ⟨u, hu, rfl⟩ := List.mem_map.1 ht
      exact ih u hu (h u hu)
    · exact h

end Frame

end Term

namespace Numbering

variable {n n' : Numbering}

/-- Merging two lists of slots gives none only if both have none. -/
theorem mergeSlots_eq_nil_iff {as bs : List Nat} : mergeSlots as bs = [] ↔ as = [] ∧ bs = [] := by
  fun_cases mergeSlots as bs with
  | case1 => simp
  | case2 as hne => simp
  | case3 | case4 | case5 => simp

/-- No slots are collected only where every argument has none. -/
theorem eq_nil_of_foldl_mergeSlots {values : List (Term × List Nat)} {collected : List Nat}
    (h : values.foldl (fun slots value => mergeSlots slots value.2) collected = []) :
    collected = [] ∧ ∀ value ∈ values, value.2 = [] := by
  induction values generalizing collected with
  | nil => exact ⟨h, by simp⟩
  | cons value values ih =>
    obtain ⟨hmerged, hrest⟩ := ih h
    obtain ⟨hcollected, hvalue⟩ := mergeSlots_eq_nil_iff.1 hmerged
    exact ⟨hcollected, List.forall_mem_cons.2 ⟨hvalue, hrest⟩⟩

/-- One numbering goes on from another, with variables that are not anonymous. -/
structure Continues (n n' : Numbering) : Prop where
  /-- The slots that are given stay. -/
  size_le : n.slots.size ≤ n'.slots.size
  /-- No anonymous variable gets a slot. -/
  named : (∀ v ∈ n.slots, v.isAnonymous = false) → ∀ v ∈ n'.slots, v.isAnonymous = false

/-- A numbering continues itself. -/
theorem Continues.refl (n : Numbering) : n.Continues n := ⟨Nat.le_refl _, id⟩

/-- What continues a continuation continues the first numbering. -/
theorem Continues.trans {n'' : Numbering} (h : n.Continues n') (h' : n'.Continues n'') :
    n.Continues n'' := ⟨Nat.le_trans h.size_le h'.size_le, h'.named ∘ h.named⟩

/-- A variable gets a slot of the numbering that results. -/
theorem slot_continues (n : Numbering) {v : Var} (hv : v.isAnonymous = false) :
    n.Continues (n.slot v).2 ∧ (n.slot v).1 < (n.slot v).2.slots.size := by
  rw [slot]
  cases hindex : n.slots.idxOf? v with
  | some i =>
    rw [Array.idxOf?_eq_map_finIdxOf?_val, Option.map_eq_some_iff] at hindex
    obtain ⟨place, _, rfl⟩ := hindex
    exact ⟨.refl n, place.isLt⟩
  | none =>
    refine ⟨⟨by simp, fun hnamed w hw => ?_⟩, by simp⟩
    rcases Array.mem_push.1 hw with hw | rfl
    · exact hnamed w hw
    · exact hv

/-- What is collected with a term is nothing only where it has no slots. -/
structure Places (n : Numbering) (value : Term × List Nat) : Prop where
  /-- The variables of the term have slots. -/
  placed : value.1.Placed n.slots.size
  /-- The slots of the term are collected. -/
  below : value.2 = [] → value.1.slots = []

/-- What one numbering places is placed by every numbering that continues it. -/
theorem Places.mono {value : Term × List Nat} (h : n.Places value) (hle : n.Continues n') :
    n'.Places value := ⟨h.placed.mono hle.size_le, h.below⟩

/-- Numbering arguments one after the other goes on with the numbering and collects the
slots of each. -/
theorem visitAll_places {ts : List Term}
    (h : ∀ t ∈ ts, ∀ n, n.Continues (visitor.visit t n).2 ∧
      (visitor.visit t n).2.Places (visitor.visit t n).1) (n : Numbering) :
    n.Continues (visitor.visitAll ts n).2 ∧
      ∀ value ∈ (visitor.visitAll ts n).1, (visitor.visitAll ts n).2.Places value := by
  induction ts generalizing n with
  | nil => exact ⟨.refl n, by simp [Term.Visitor.visitAll]⟩
  | cons t ts ih =>
    obtain ⟨hfirst, hvalue⟩ := h t List.mem_cons_self n
    obtain ⟨hrest, hvalues⟩ := ih (fun u hu => h u (List.mem_cons_of_mem _ hu))
      (visitor.visit t n).2
    rw [Term.Visitor.visitAll]
    exact ⟨hfirst.trans hrest, List.forall_mem_cons.2 ⟨hvalue.mono hrest, hvalues⟩⟩

section Nodes

variable (n : Numbering)

/-- An atom is visited without a slot. -/
theorem visit_atom (name : String) : visitor.visit (.atom name) n = ((.atom name, []), n) := by
  rw [Term.Visitor.visit_eq]
  rfl

/-- A number is visited without a slot. -/
theorem visit_number (value : Number) :
    visitor.visit (.number value) n = ((.number value, []), n) := by
  rw [Term.Visitor.visit_eq]
  rfl

/-- A variable without a name is visited without a slot. -/
theorem visit_anonymous {v : Var} (hv : v.isAnonymous = true) :
    visitor.visit (.var v) n = ((.var .anonymous, []), n) := by
  rw [Term.Visitor.visit_eq]
  simp [visitor, hv]

/-- A named variable is visited with the slot the numbering has for it. -/
theorem visit_named {v : Var} (hv : v.isAnonymous = false) : visitor.visit (.var v) n =
    ((.var ⟨v.name, some (n.slot v).1⟩, [(n.slot v).1]), (n.slot v).2) := by
  rw [Term.Visitor.visit_eq]
  simp [visitor, hv]

/-- The arguments of a compound term are numbered one after the other. -/
theorem visit_compound (f : String) (as : List Term) (m : Nat) :
    visitor.visit (.compound f as m) n =
      ((.compound f ((visitor.visitAll as n).1.map Prod.fst)
          ((visitor.visitAll as n).1.foldl (fun slots value => mergeSlots slots value.2) []).length,
        (visitor.visitAll as n).1.foldl (fun slots value => mergeSlots slots value.2) []),
        (visitor.visitAll as n).2) := by
  rw [Term.Visitor.visit_eq]
  rfl

end Nodes

/-- Numbering a term goes on with the numbering and collects the slots. -/
theorem visit_places (t : Term) (n : Numbering) :
    n.Continues (visitor.visit t n).2 ∧ (visitor.visit t n).2.Places (visitor.visit t n).1 := by
  induction t generalizing n with
  | atom name =>
    rw [visit_atom]
    exact ⟨.refl n, ⟨Term.scoped_atom _ _, .atom name⟩, by simp⟩
  | number value =>
    rw [visit_number]
    exact ⟨.refl n, ⟨Term.scoped_number _ _, .number value⟩, by simp⟩
  | var v =>
    cases hv : v.isAnonymous with
    | true =>
      rw [visit_anonymous n hv]
      exact ⟨.refl n, ⟨Term.scoped_var.2 (Or.inl rfl), .var _⟩, fun _ => rfl⟩
    | false =>
      obtain ⟨hcontinues, hlt⟩ := n.slot_continues hv
      rw [visit_named n hv]
      exact ⟨hcontinues, ⟨Term.scoped_var.2 (Or.inr ⟨_, hlt, rfl⟩), .var _⟩, by simp⟩
  | compound f as m ih =>
    obtain ⟨hcontinues, hvalues⟩ := visitAll_places ih n
    rw [visit_compound]
    generalize visitor.visitAll as n = reply at hcontinues hvalues ⊢
    obtain ⟨values, n'⟩ := reply
    have hargs : ∀ t ∈ values.map Prod.fst, t.Placed n'.slots.size := by
      simpa using fun t below hmem => (hvalues (t, below) hmem).placed
    have hempty : values.foldl (fun slots value => mergeSlots slots value.2) [] = [] →
        ∀ t ∈ values.map Prod.fst, t.slots = [] := by
      intro hnil t hmem
      obtain ⟨value, hvalue, rfl⟩ := List.mem_map.1 hmem
      exact (hvalues value hvalue).below ((eq_nil_of_foldl_mergeSlots hnil).2 value hvalue)
    refine ⟨hcontinues, ⟨?_, .compound (fun t hmem => (hargs t hmem).tallied) ?_⟩, ?_⟩
    · exact Term.scoped_compound.2 fun t hmem => (hargs t hmem).scope
    · exact fun hcount => hempty (List.length_eq_zero_iff.1 hcount)
    · intro hnil
      refine List.eq_nil_iff_forall_not_mem.2 fun slot hslot => ?_
      obtain ⟨t, hmem, hslot⟩ := Term.mem_slots_compound.1 hslot
      rw [hempty hnil t hmem] at hslot
      cases hslot

/-- Each argument is numbered for itself, only the numbering goes on. -/
theorem mem_visitAll {ts : List Term} {value : Term × List Nat} {n : Numbering}
    (h : value ∈ (visitor.visitAll ts n).1) : ∃ t ∈ ts, ∃ n', value = (visitor.visit t n').1 := by
  induction ts generalizing n with
  | nil => simp [Term.Visitor.visitAll] at h
  | cons t ts ih =>
    rw [Term.Visitor.visitAll] at h
    rcases List.mem_cons.1 h with rfl | h
    · exact ⟨t, List.mem_cons_self, n, rfl⟩
    · obtain ⟨u, hu, hvalue⟩ := ih h
      exact ⟨u, List.mem_cons_of_mem _ hu, hvalue⟩

/-- Numbering a clean term gives a plain one. -/
theorem isPlain_visit {t : Term} (ht : t.isClean) (n : Numbering) :
    (visitor.visit t n).1.1.isPlain := by
  induction t generalizing n with
  | atom name =>
    rw [visit_atom]
    rfl
  | number value =>
    rw [visit_number]
    exact ht
  | var v =>
    have hv : v.isAnonymous = false := by simpa [Term.isClean] using ht
    rw [visit_named n hv]
    exact Term.isPlain_var.2 ⟨⟨_, rfl⟩, hv⟩
  | compound f as m ih =>
    rw [Term.isClean_compound] at ht
    rw [visit_compound, Term.isPlain_compound]
    intro t hmem
    obtain ⟨value, hvalue, rfl⟩ := List.mem_map.1 hmem
    obtain ⟨t, ht', n', rfl⟩ := mem_visitAll hvalue
    exact ih t ht' (ht t ht') n'

/-- The variables of a term get slots below the size of the numbering. -/
theorem number_placed (t : Term) (n : Numbering) :
    n.Continues (n.number t).2 ∧ (n.number t).1.Placed (n.number t).2.slots.size := by
  obtain ⟨hcontinues, hplaces⟩ := visit_places t n
  rw [number, Term.fold_eq_visit]
  exact ⟨hcontinues, hplaces.placed⟩

/-- The variables of a clean term are numbered below the size of the numbering. -/
theorem number_numbered {t : Term} (ht : t.isClean) (n : Numbering) :
    n.Continues (n.number t).2 ∧ (n.number t).1.Numbered (n.number t).2.slots.size := by
  obtain ⟨hcontinues, hplaced⟩ := number_placed t n
  refine ⟨hcontinues, hplaced.numbered ?_⟩
  rw [number, Term.fold_eq_visit]
  exact isPlain_visit ht n

end Numbering

/-- A goal without anonymous variables is normalized to one that is plain. -/
theorem Term.isPlain_normalize {t : Term} (ht : t.isClean) : t.normalize.term.isPlain :=
  (Numbering.number_numbered ht .empty).2.plain

namespace Clause

variable {clause : Clause} {c : Context} {θ : Assignment}

/-- The clause is made from a head and a body without anonymous variables and without
numbers that are not numbers. -/
def IsClean (clause : Clause) : Prop :=
  ∃ (text : Nat) (head body : Term),
    head.isClean ∧ body.isClean ∧ rule text head body = .ok clause

/-- The clause is made from a head and a body. -/
def IsBuilt (clause : Clause) : Prop :=
  ∃ (text : Nat) (head body : Term), rule text head body = .ok clause

/-- A clause that is clean is built from terms. -/
theorem IsClean.isBuilt (h : clause.IsClean) : clause.IsBuilt := by
  obtain ⟨text, head, body, _, _, hrule⟩ := h
  exact ⟨text, head, body, hrule⟩

/-- A clause is made by numbering the head and then the body. -/
theorem eq_of_rule {text : Nat} {head body : Term} (hrule : rule text head body = .ok clause) :
    (Numbering.empty.number head).1.callable? = some clause.head ∧
      ((Numbering.empty.number head).2.number body).1 = clause.body ∧
      ((Numbering.empty.number head).2.number body).2.vars.map Var.name = clause.varNames := by
  unfold rule at hrule
  split at hrule
  · split at hrule
    · cases hrule
    · dsimp only at hrule
      split at hrule
      · next parts hparts =>
        cases hrule
        exact ⟨hparts, rfl, rfl⟩
      · cases hrule
  · cases hrule

/-- A clause is written in the text for which it is made. -/
theorem text_of_rule {text : Nat} {head body : Term} (hrule : rule text head body = .ok clause) :
    clause.text = text := by
  unfold rule at hrule
  split at hrule
  · split at hrule
    · cases hrule
    · dsimp only at hrule
      split at hrule
      · cases hrule
        rfl
      · cases hrule
  · cases hrule

/-- There is a name for each slot of the numbering. -/
theorem varCount_of_rule {text : Nat} {head body : Term}
    (hrule : rule text head body = .ok clause) :
    clause.varCount = ((Numbering.empty.number head).2.number body).2.slots.size := by
  rw [varCount, ← (eq_of_rule hrule).2.2]
  simp [Numbering.vars]

/-- The variables of head and body have slots below the number of variables. -/
structure Placed (clause : Clause) : Prop where
  /-- Those of the head. -/
  head : clause.head.toTerm.Placed clause.varCount
  /-- Those of the body. -/
  body : clause.body.Placed clause.varCount

/-- What holds of a head holds of it in whichever form it is kept, if it holds of compound terms
without arguments. -/
theorem callable?_keeps {motive : Term → Prop} {t : Term} {parts : Compound}
    (hatom : ∀ name, motive (.compound name [] 0)) (h : motive t)
    (hparts : t.callable? = some parts) : motive parts.toTerm := by
  cases t with
  | atom name =>
    cases hparts
    exact hatom name
  | compound f as m =>
    cases hparts
    exact h
  | number | var => cases hparts

/-- The variables of a clause that was made have slots. -/
theorem IsBuilt.placed (h : clause.IsBuilt) : clause.Placed := by
  obtain ⟨text, head, body, hrule⟩ := h
  obtain ⟨hcontinues, hhead⟩ := Numbering.number_placed head .empty
  obtain ⟨hcontinues', hbody⟩ := Numbering.number_placed body (Numbering.empty.number head).2
  obtain ⟨hparts, hbodyEq, _⟩ := eq_of_rule hrule
  rw [← varCount_of_rule hrule] at hbody
  have hsize := hcontinues'.size_le
  rw [← varCount_of_rule hrule] at hsize
  refine ⟨?_, hbodyEq ▸ hbody⟩
  exact callable?_keeps (motive := fun t => t.Placed clause.varCount)
    (fun _ => ⟨Term.scoped_compound.2 (by simp), .compound (by simp) (by simp)⟩)
    (hhead.mono hsize) hparts

/-- The head and the body are numbered below the number of variables, none of which is
anonymous. -/
structure Numbered (clause : Clause) : Prop where
  /-- The head is numbered. -/
  head : clause.head.toTerm.Numbered clause.varCount
  /-- The body is numbered. -/
  body : clause.body.Numbered clause.varCount
  /-- No variable is anonymous. -/
  named : ∀ name ∈ clause.varNames, name ≠ Var.anonymousName

/-- A clean clause is numbered. -/
theorem IsClean.numbered (h : clause.IsClean) : clause.Numbered := by
  have hplaced := h.isBuilt.placed
  obtain ⟨text, head, body, hhead, hbody, hrule⟩ := h
  obtain ⟨hcontinues, hnumbered⟩ := Numbering.number_numbered hhead .empty
  obtain ⟨hcontinues', hnumbered'⟩ :=
    Numbering.number_numbered hbody (Numbering.empty.number head).2
  obtain ⟨hparts, hbodyEq, hnames⟩ := eq_of_rule hrule
  have hplain :=
    callable?_keeps (motive := fun t => t.isPlain) (fun _ => rfl) hnumbered.plain hparts
  refine ⟨hplaced.head.numbered hplain, hplaced.body.numbered (hbodyEq ▸ hnumbered'.plain), ?_⟩
  intro name hname
  rw [← hnames] at hname
  obtain ⟨v, hv, rfl⟩ :
      ∃ v ∈ ((Numbering.empty.number head).2.number body).2.slots, v.name = name := by
    simpa [Numbering.vars, List.mem_zipIdx_iff_getElem?, Array.mem_iff_getElem?] using hname
  have hnamed := (hcontinues.trans hcontinues').named (by simp [Numbering.empty]) v hv
  simpa [Var.isAnonymous] using hnamed

/-- What an assignment gives to the variables of a clause renamed from a slot on. -/
def values (clause : Clause) (base : Nat) (θ : Assignment) : Assignment :=
  fun slot => ((clause.frame base)[slot]?).map (Term.assign θ)

/-- A frame has an entry for every variable of the clause. -/
@[simp] theorem size_frame (clause : Clause) (base : Nat) :
    (clause.frame base).size = clause.varCount := by
  simp [frame, varCount]

/-- The variable at a slot of the clause moves that far from the base. -/
theorem frame_getElem? {slot : Nat} (clause : Clause) (base : Nat) (h : slot < clause.varCount) :
    ∃ name, (clause.frame base)[slot]? = some (.var ⟨name, some (base + slot)⟩) := by
  refine ⟨clause.varNames[slot], ?_⟩
  simp [frame, List.getElem?_eq_getElem h]

/-- The variables of a renamed term have slots from the base on. Where no variables are
counted nothing is renamed, and there nothing has a slot. -/
theorem fresh_instantiate {t : Term} (h : t.Placed clause.varCount) (base : Nat) :
    (t.instantiate (clause.frame base)).Fresh base (base + clause.varCount) := by
  induction t with
  | atom | number => simp [Term.Fresh]
  | var v =>
    rw [Term.instantiate_var]
    rcases Term.scoped_var.1 h.scope with rfl | ⟨slot, hlt, hslot⟩
    · simp [Term.Fresh, Var.anonymous]
    · obtain ⟨name, hname⟩ := clause.frame_getElem? base hlt
      rw [hslot, Option.bind_some, hname, Option.getD_some]
      intro w hw
      obtain rfl : w = ⟨name, some (base + slot)⟩ := by simpa using hw
      exact Or.inr ⟨base + slot, by omega, by omega, rfl⟩
  | compound f as m ih =>
    have hscope := Term.scoped_compound.1 h.scope
    obtain ⟨hargs, hcount⟩ : (∀ t ∈ as, t.Tallied) ∧ (m = 0 → ∀ t ∈ as, t.slots = []) := by
      cases h.tallied with
      | compound hargs hcount => exact ⟨hargs, hcount⟩
    rw [Term.instantiate_compound, Term.fresh_compound]
    split
    · intro t ht
      obtain ⟨u, hu, rfl⟩ := List.mem_map.1 ht
      exact ih u hu ⟨hscope u hu, hargs u hu⟩
    · intro t ht
      exact (hscope t ht).fresh_of_slots_eq_nil (hcount (by omega) t ht) _ _

/-- The variables of the renamed head have the slots that are allocated for it. -/
theorem Placed.fresh_head (h : clause.Placed) (c : Context) :
    (clause.rename c).head.term.Fresh c.top (c.top + clause.varCount) :=
  fresh_instantiate h.head c.top

/-- So have those of the renamed body. -/
theorem Placed.fresh_body (h : clause.Placed) (c : Context) :
    (clause.rename c).body.term.Fresh c.top (c.top + clause.varCount) :=
  fresh_instantiate h.body c.top

/-- The variables of a renamed clause are named and have slots. -/
theorem Numbered.isPlain_frame (h : clause.Numbered) (base : Nat) :
    ∀ t ∈ clause.frame base, t.isPlain := by
  intro t ht
  obtain ⟨⟨name, i⟩, hmem, rfl⟩ := Array.mem_map.1 ht
  have hname : name ∈ clause.varNames := List.fst_mem_of_mem_zipIdx (List.mem_toArray.1 hmem)
  refine Term.isPlain_var.2 ⟨⟨i, rfl⟩, ?_⟩
  simpa [Var.isAnonymous] using h.named name hname

/-- The renamed head is plain, and becomes an instance of the head. -/
theorem Numbered.rename_head (h : clause.Numbered) (c : Context) :
    (clause.rename c).head.term.isPlain ∧ ∀ θ : Assignment,
      (clause.rename c).head.term.assign θ =
        clause.head.toTerm.assign (clause.values c.top θ) := by
  have hhead : clause.head.toTerm.Numbered (clause.frame c.top).size := by
    rw [size_frame]
    exact h.head
  exact ⟨Term.isPlain_instantiate h.head.plain (h.isPlain_frame c.top),
    fun θ => Term.assign_instantiate hhead⟩

/-- The renamed body is plain, and becomes the same instance of the body. -/
theorem Numbered.rename_body (h : clause.Numbered) (c : Context) :
    (clause.rename c).body.term.isPlain ∧ ∀ θ : Assignment,
      (clause.rename c).body.term.assign θ = clause.body.assign (clause.values c.top θ) := by
  have hbody : clause.body.Numbered (clause.frame c.top).size := by
    rw [size_frame]
    exact h.body
  exact ⟨Term.isPlain_instantiate h.body.plain (h.isPlain_frame c.top),
    fun θ => Term.assign_instantiate hbody⟩

/-- The head of an instance has the functor and the arity of the head. -/
theorem exists_term_rename_head (clause : Clause) (c : Context) :
    ∃ args varCount, (clause.rename c).head.term = .compound clause.head.functor args varCount ∧
      args.length = clause.head.arity := by
  have hterm : (clause.rename c).head.term =
      (Term.compound clause.head.functor clause.head.args clause.head.varCount).instantiate
        (clause.frame c.top) := rfl
  rw [Term.instantiate_compound] at hterm
  refine ⟨_, _, hterm, ?_⟩
  split <;> simp [Compound.arity]

end Clause

end ClauseResolution
