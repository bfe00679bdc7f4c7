import ClauseResolution.Proofs.Term.Anonymous
import ClauseResolution.Proofs.Term.Names
import Mathlib.Data.List.Dedup
import Mathlib.Data.List.ReduceOption

/-!
# Terms with a variable for each gap

A term in which each anonymous variable is replaced by a variable of its own has more slots
than the term had. A reading tells for each slot of the new term which slot of the old one it
stands for, or that it stands for an anonymous variable; such a slot is a gap. Reading the new
term gives back the old one, with its counts of variables. Nothing but the gaps is lost.
-/

namespace ClauseResolution

/-- What each slot stands for: a slot, or the anonymous variable. -/
abbrev Reading := List (Option Nat)

namespace Reading

/-- The slots that are read are those below a bound, each of them once and in order. -/
def Covers (r : Reading) (top : Nat) : Prop := r.reduceOption = List.range top

/-- A slot is read as another one. -/
def At (r : Reading) (j i : Nat) : Prop := r[j]? = some (some i)

/-- A slot is a gap. -/
def IsGap (r : Reading) (j : Nat) : Prop := r[j]? = some none

instance (r : Reading) (j : Nat) : Decidable (r.IsGap j) := inferInstanceAs (Decidable (_ = _))

variable {r : Reading} {top i j k : Nat}

/-- A slot that is read has an entry in the reading. -/
theorem At.lt_length (h : r.At j i) : j < r.length := (List.getElem?_eq_some_iff.1 h).1

/-- A slot is read as one slot only. -/
theorem At.functional (h : r.At j i) (h' : r.At j k) : i = k := by
  rw [At, h] at h'
  exact Option.some.inj (Option.some.inj h')

/-- A slot that is read as another one is no gap. -/
theorem At.not_isGap (h : r.At j i) : ¬ r.IsGap j := by
  rw [IsGap, h]
  simp

/-- A slot of the reading is a gap or read as some slot. -/
theorem isGap_or_at (h : j < r.length) : r.IsGap j ∨ ∃ i, r.At j i := by
  rw [IsGap]
  simp only [At, List.getElem?_eq_getElem h]
  cases r[j] with
  | none => exact Or.inl rfl
  | some i => exact Or.inr ⟨i, rfl⟩

/-- The slots that are read are those below the bound. -/
theorem Covers.exists_at_iff (h : r.Covers top) : (∃ j, r.At j i) ↔ i < top := by
  rw [← List.mem_range, ← h, List.reduceOption_mem_iff, List.mem_iff_getElem?]
  rfl

/-- A slot is read as one below the bound. -/
theorem Covers.lt (h : r.Covers top) (hat : r.At j i) : i < top := h.exists_at_iff.1 ⟨j, hat⟩

/-- Different slots are read as different ones. -/
theorem Covers.injective (h : r.Covers top) (hj : r.At j i) (hk : r.At k i) : j = k := by
  have hnodup : r.reduceOption.Nodup := h ▸ List.nodup_range
  clear h
  rw [At] at hj hk
  induction r generalizing j k with
  | nil => simp at hj
  | cons entry r ih =>
    have hmem : ∀ n, r[n]? = some (some i) → i ∈ List.reduceOption r := fun n hn =>
      List.reduceOption_mem_iff.2 (List.mem_of_getElem? hn)
    cases entry with
    | none =>
      rw [List.reduceOption_cons_of_none] at hnodup
      cases j <;> cases k <;> simp at hj hk
      exact congrArg _ (ih hj hk hnodup)
    | some first =>
      rw [List.reduceOption_cons_of_some, List.nodup_cons] at hnodup
      cases j <;> cases k <;> simp at hj hk
      · rfl
      · exact absurd (hmem _ hk) (hj ▸ hnodup.1)
      · exact absurd (hmem _ hj) (hk ▸ hnodup.1)
      · exact congrArg _ (ih hj hk hnodup.2)

end Reading

/-- The variable that a variable stands for. -/
def Var.readBy (r : Reading) (v : Var) : Var :=
  match v.index.bind (r[·]?) with
  | some (some slot) => ⟨v.name, some slot⟩
  | _ => .anonymous

/-- A variable is read as the one at the slot that the reading gives. -/
theorem Var.readBy_of_at {r : Reading} {v : Var} {j i : Nat} (hv : v.index = some j)
    (h : r.At j i) : v.readBy r = ⟨v.name, some i⟩ := by
  rw [readBy, hv, Option.bind_some, h]

/-- A variable at a gap is read as the anonymous one. -/
theorem Var.readBy_of_isGap {r : Reading} {v : Var} {j : Nat} (hv : v.index = some j)
    (h : r.IsGap j) : v.readBy r = .anonymous := by
  rw [readBy, hv, Option.bind_some, h]

mutual

/-- The term with its variables counted anew. -/
def Term.recount : Term → Term
  | .compound functor args _ =>
    .compound functor (Term.recountAll args)
      ((Term.recountAll args).flatMap Term.slots).dedup.length
  | t => t

/-- The terms of a list with their variables counted anew. -/
def Term.recountAll : List Term → List Term
  | [] => []
  | t :: ts => t.recount :: Term.recountAll ts

end

namespace Term

variable {r : Reading} {t u : Term}

/-- Terms are counted one by one. -/
theorem recountAll_eq_map (ts : List Term) : recountAll ts = ts.map recount := by
  induction ts with
  | nil => rfl
  | cons t ts ih => rw [recountAll, ih, List.map_cons]

/-- A compound term is counted by the different slots in its arguments. -/
theorem recount_compound (functor : String) (args : List Term) (varCount : Nat) :
    (compound functor args varCount).recount =
      .compound functor (args.map recount) ((args.map recount).flatMap slots).dedup.length := by
  rw [recount, recountAll_eq_map]

/-- Counting does not change the leaves of a term. -/
@[simp] theorem leaves_recount (t : Term) : t.recount.leaves = t.leaves := by
  induction t with
  | atom | number | var => rfl
  | compound functor args varCount ih =>
    rw [recount_compound, leaves_compound, leaves_compound, List.flatMap_map]
    exact List.flatMap_congr ih

/-- Counting does not change the slots of a term. -/
@[simp] theorem slots_recount (t : Term) : t.recount.slots = t.slots := by
  rw [slots, slots, leaves_recount]

/-- Terms can be counted before or after the arguments are taken. -/
@[simp] theorem args_recount (t : Term) : t.recount.args = t.args.map recount := by
  cases t with
  | atom | number | var => rfl
  | compound => rw [recount_compound, args, args]

/-- Counting variables does not change the number of nodes of terms. -/
theorem countNodes_recount (counted : Nat) (ts : List Term) :
    countNodes counted (ts.map recount) = countNodes counted ts := by
  fun_induction countNodes counted ts with
  | case1 => rw [List.map_nil, countNodes]
  | case2 counted t ts ih =>
    rw [List.map_append] at ih
    rw [List.map_cons, countNodes, args_recount, ih]

/-- Counting variables does not change the number of nodes of a term. -/
@[simp] theorem size_recount (t : Term) : t.recount.size = t.size := countNodes_recount 0 [t]

/-- The slots of a compound term are those of its arguments, in turn. -/
theorem slots_compound (functor : String) (args : List Term) (varCount : Nat) :
    (compound functor args varCount).slots = args.flatMap slots := by
  rw [slots, leaves_compound, List.filterMap_flatMap]
  rfl

/-- Replacing variables moves the slots of a term as it moves those of its variables. -/
theorem slots_mapVars {f : Var → Var} {g : Nat → Nat}
    (h : ∀ v, .var v ∈ t.leaves → (f v).index = v.index.map g) :
    (t.mapVars f).slots = t.slots.map g := by
  rw [slots, slots, leaves_mapVars, List.filterMap_map, List.map_filterMap]
  refine List.filterMap_congr fun leaf hleaf => ?_
  cases leaf with
  | var v => exact h v hleaf
  | atom | number | compound => rfl

/-- Variables may be replaced before they are counted or after, if different slots remain
different. -/
theorem recount_mapVars {f : Var → Var} {g : Nat → Nat} (hg : g.Injective)
    (h : ∀ v, .var v ∈ t.leaves → (f v).index = v.index.map g) :
    (t.mapVars f).recount = t.recount.mapVars f := by
  induction t with
  | atom | number | var => rfl
  | compound functor args varCount ih =>
    have hargs : ∀ t ∈ args, ∀ v, .var v ∈ t.leaves → (f v).index = v.index.map g :=
      fun t ht v hv => h v (by rw [leaves_compound]; exact List.mem_flatMap.2 ⟨t, ht, hv⟩)
    have hcount : ((args.map (mapVars f)).map recount).flatMap slots =
        (((args.map recount).flatMap slots).map g) := by
      rw [List.map_flatMap, List.flatMap_map, List.flatMap_map, List.flatMap_map]
      refine List.flatMap_congr fun t ht => ?_
      rw [slots_recount, slots_recount, slots_mapVars (hargs t ht)]
    rw [mapVars_compound, recount_compound, recount_compound, mapVars_compound, hcount,
      List.dedup_map_of_injective hg, List.length_map, List.map_map, List.map_map]
    congr 1
    exact List.map_congr_left fun t ht => ih t ht (hargs t ht)

/-- The term that a term stands for. -/
def readBy (r : Reading) (t : Term) : Term := (t.mapVars (Var.readBy r)).recount

/-- An atom is read as itself. -/
@[simp] theorem readBy_atom (name : String) : (atom name).readBy r = .atom name := rfl

/-- A number is read as itself. -/
@[simp] theorem readBy_number (value : Number) : (number value).readBy r = .number value := rfl

/-- A term that is a variable is read as the variable is. -/
theorem readBy_var (v : Var) : (var v).readBy r = .var (v.readBy r) := rfl

/-- A compound term is read by reading its arguments and counting their slots. -/
theorem readBy_compound (functor : String) (args : List Term) (varCount : Nat) :
    (compound functor args varCount).readBy r = .compound functor (args.map (readBy r))
      ((args.map (readBy r)).flatMap slots).dedup.length := by
  rw [readBy, mapVars_compound, recount_compound, List.map_map]
  rfl

/-- Terms can be read before or after the arguments are taken. -/
@[simp] theorem args_readBy (t : Term) : (t.readBy r).args = t.args.map (readBy r) := by
  rw [readBy, args_recount, args_mapVars, List.map_map]
  rfl

/-- A term has as many nodes when it is read. -/
@[simp] theorem size_readBy (t : Term) : (t.readBy r).size = t.size := by
  rw [readBy, size_recount, size_mapVars]

/-- All variables of a term are named and have slots for which a reading says what they
stand for, and they are counted. -/
structure Fits (r : Reading) (t : Term) : Prop where
  /-- The variables are named and have slots. -/
  named : ∀ v, .var v ∈ t.leaves → v.isAnonymous = false ∧ ∃ j < r.length, v.index = some j
  /-- They are counted. -/
  counted : t.recount = t

/-- The gaps in a term. -/
def gaps (r : Reading) (t : Term) : List Nat := t.slots.filter (r.IsGap ·)

/-- A gap of a term is a slot in it for which the reading has a gap. -/
theorem mem_gaps {j : Nat} : j ∈ t.gaps r ↔ j ∈ t.slots ∧ r.IsGap j := by
  simp [gaps]

/-- The gaps of a compound term are those of its arguments, in turn. -/
theorem gaps_compound (functor : String) (args : List Term) (varCount : Nat) :
    (compound functor args varCount).gaps r = args.flatMap (gaps r) := by
  rw [gaps, slots_compound, List.filter_flatMap]
  rfl

namespace Fits

/-- An atom fits every reading. -/
theorem atom (name : String) : (Term.atom name).Fits r := ⟨by simp, rfl⟩

/-- The arguments of a term that fits a reading fit it too. -/
theorem of_mem_args (h : u.Fits r) (ht : t ∈ u.args) : t.Fits r := by
  cases u with
  | atom | number | var => simp [args] at ht
  | compound functor args varCount =>
    refine ⟨fun v hv => h.named v ?_, ?_⟩
    · rw [leaves_compound]
      exact List.mem_flatMap.2 ⟨t, ht, hv⟩
    · have hargs := (compound.inj ((recount_compound ..).symm.trans h.counted)).2.1
      exact List.map_inj_left.1 (hargs.trans (List.map_id args).symm) t ht

/-- A term that fits a reading fits every longer one. -/
theorem append (h : t.Fits r) (more : Reading) : t.Fits (r ++ more) := by
  refine ⟨fun v hv => ?_, h.counted⟩
  obtain ⟨hnamed, j, hlt, hj⟩ := h.named v hv
  exact ⟨hnamed, j, by rw [List.length_append]; omega, hj⟩

/-- A longer reading makes no difference. -/
theorem readBy_append (h : t.Fits r) (more : Reading) : t.readBy (r ++ more) = t.readBy r := by
  rw [readBy, readBy]
  congr 1
  refine mapVars_congr fun v hv => ?_
  obtain ⟨_, j, hlt, hj⟩ := h.named v hv
  rw [Var.readBy, Var.readBy, hj, Option.bind_some, Option.bind_some,
    List.getElem?_append_left hlt]

/-- The slots of a term that fits a reading have entries in it. -/
theorem lt_length (h : t.Fits r) {j : Nat} (hj : j ∈ t.slots) : j < r.length := by
  obtain ⟨leaf, hleaf, hslot⟩ := List.mem_filterMap.1 hj
  cases leaf with
  | var v =>
    obtain ⟨_, k, hlt, hk⟩ := h.named v hleaf
    obtain rfl : k = j := Option.some.inj (hk.symm.trans hslot)
    exact hlt
  | atom | number | compound => cases hslot

/-- A term that fits a reading has no further gaps in a longer one. -/
theorem gaps_append (h : t.Fits r) (more : Reading) : t.gaps (r ++ more) = t.gaps r := by
  refine List.filter_congr fun j hj => ?_
  rw [decide_eq_decide, Reading.IsGap, Reading.IsGap, List.getElem?_append_left (h.lt_length hj)]

end Fits

namespace Fits

variable {top : Nat}

/-- A variable is a gap or is read as one with the same name. -/
theorem var_cases {v : Var} (h : (var v).Fits r) : v.isAnonymous = false ∧
    ((∃ j, v.index = some j ∧ r.IsGap j ∧ v.readBy r = .anonymous) ∨
      ∃ j i, v.index = some j ∧ r.At j i ∧ v.readBy r = ⟨v.name, some i⟩) := by
  obtain ⟨hnamed, j, hlt, hj⟩ := h.named v (by simp)
  refine ⟨hnamed, ?_⟩
  rcases Reading.isGap_or_at hlt with hgap | ⟨i, hat⟩
  · exact Or.inl ⟨j, hj, hgap, Var.readBy_of_isGap hj hgap⟩
  · exact Or.inr ⟨j, i, hj, hat, Var.readBy_of_at hj hat⟩

/-- A term without gaps stands for one without the anonymous variable. -/
theorem isAnonymousFree_readBy (h : t.Fits r) :
    (t.readBy r).isAnonymousFree ↔ t.gaps r = [] := by
  induction t with
  | atom | number => simp [isAnonymousFree, gaps]
  | var v =>
    rw [readBy_var, isAnonymousFree_var, gaps, slots_var]
    obtain ⟨hnamed, ⟨j, hj, hgap, hread⟩ | ⟨j, i, hj, hat, hread⟩⟩ := h.var_cases
    · simp [hread, hj, hgap, Var.isAnonymous, Var.anonymous]
    · rw [Var.isAnonymous] at hnamed
      simp [hread, hj, hat.not_isGap, Var.isAnonymous, hnamed]
  | compound functor args varCount ih =>
    rw [readBy_compound, isAnonymousFree_compound, gaps_compound, List.flatMap_eq_nil_iff,
      List.forall_mem_map]
    exact forall₂_congr fun t ht => ih t ht (h.of_mem_args ht)

/-- Terms without gaps that stand for the same term are equal. -/
theorem eq_of_readBy_eq (hr : r.Covers top) (ht : t.Fits r) (hu : u.Fits r)
    (hgaps : t.gaps r = []) (h : t.readBy r = u.readBy r) : t = u := by
  have hgaps' : u.gaps r = [] := by
    rw [← hu.isAnonymousFree_readBy, ← h, ht.isAnonymousFree_readBy, hgaps]
  induction t generalizing u with
  | atom | number => cases u <;> simp_all [readBy_var, readBy_compound]
  | var v =>
    cases u with
    | atom | number | compound => simp [readBy_var, readBy_compound] at h
    | var w =>
      rw [gaps, slots_var] at hgaps hgaps'
      have hread := var.inj h
      obtain ⟨_, ⟨j, hj, hgap, _⟩ | ⟨j, i, hj, hat, hv⟩⟩ := ht.var_cases
      · simp [hj, hgap] at hgaps
      obtain ⟨_, ⟨k, hk, hgap, _⟩ | ⟨k, i', hk, hat', hw⟩⟩ := hu.var_cases
      · simp [hk, hgap] at hgaps'
      rw [hv, hw] at hread
      obtain ⟨hname, hindex⟩ := Var.mk.inj hread
      obtain rfl := Option.some.inj hindex
      obtain rfl := hr.injective hat hat'
      rw [var.injEq]
      obtain ⟨name, index⟩ := v
      obtain ⟨name', index'⟩ := w
      simp_all
  | compound functor args varCount ih =>
    cases u with
    | atom | number | var => simp [readBy_var, readBy_compound] at h
    | compound functor' args' varCount' =>
      rw [readBy_compound, readBy_compound] at h
      obtain ⟨rfl, hargs, -⟩ := compound.inj h
      rw [gaps_compound, List.flatMap_eq_nil_iff] at hgaps hgaps'
      have hpairs : List.Forall₂ (fun t u => t.readBy r = u.readBy r) args args' := by
        have hequal : List.Forall₂ Eq (args.map (readBy r)) (args'.map (readBy r)) := by
          rw [hargs, List.forall₂_eq_eq_eq]
        rwa [List.forall₂_map_left_iff, List.forall₂_map_right_iff] at hequal
      have hsame : args = args' := by
        have hleft : ∀ t ∈ args, t.Fits r := fun t htm => ht.of_mem_args htm
        have hright : ∀ u ∈ args', u.Fits r := fun u hum => hu.of_mem_args hum
        clear ht hu h hargs
        induction hpairs with
        | nil => rfl
        | @cons t u ts us hread _ ihs =>
          simp only [List.forall_mem_cons] at ih hleft hright hgaps hgaps'
          rw [ih.1 hleft.1 hright.1 hgaps.1 hread hgaps'.1,
            ihs ih.2 hgaps.2 hgaps'.2 hleft.2 hright.2]
      have hcount := (compound.inj ((recount_compound ..).symm.trans ht.counted)).2.2
      have hcount' := (compound.inj ((recount_compound ..).symm.trans hu.counted)).2.2
      rw [← hcount, ← hcount', hsame]

/-- What a term stands for has slots below the bound of the reading. -/
theorem scoped_readBy (hr : r.Covers top) (h : t.Fits r) : (t.readBy r).Scoped top := by
  intro w hw
  rw [readBy, leaves_recount] at hw
  obtain ⟨v, hleaf, rfl⟩ := exists_of_mem_leaves_mapVars hw
  have hv : (var v).Fits r := ⟨fun w hw => by
    obtain rfl := var.inj (List.mem_singleton.1 hw)
    exact h.named _ hleaf, rfl⟩
  obtain ⟨_, ⟨j, hj, hgap, hread⟩ | ⟨j, i, hj, hat, hread⟩⟩ := hv.var_cases
  · exact Or.inl hread
  · exact Or.inr ⟨i, hr.lt hat, by rw [hread]⟩

/-- The slots of a term that fits a reading are below the length of the reading. -/
theorem scoped_self (h : t.Fits r) : t.Scoped r.length := by
  intro v hv
  obtain ⟨_, j, hlt, hj⟩ := h.named v hv
  exact Or.inr ⟨j, hlt, hj⟩

/-- The slots of what a term stands for are those that its own slots stand for. -/
theorem mem_slots_readBy (h : t.Fits r) {i : Nat} :
    i ∈ (t.readBy r).slots ↔ ∃ j ∈ t.slots, r.At j i := by
  induction t with
  | atom | number => simp
  | var v =>
    rw [readBy_var, mem_slots_var]
    obtain ⟨_, ⟨j, hj, hgap, hread⟩ | ⟨j, k, hj, hat, hread⟩⟩ := h.var_cases
    · simp only [hread, Var.anonymous, mem_slots_var, hj, reduceCtorEq, false_iff]
      rintro ⟨_, ⟨⟩, hat⟩
      exact hat.not_isGap hgap
    · simp only [hread, mem_slots_var, hj]
      constructor
      · rintro ⟨⟩
        exact ⟨j, rfl, hat⟩
      · rintro ⟨_, ⟨⟩, hat'⟩
        rw [hat.functional hat']
  | compound functor args varCount ih =>
    simp only [readBy_compound, mem_slots_compound, List.mem_map, exists_exists_and_eq_and]
    constructor
    · rintro ⟨t, ht, hi⟩
      obtain ⟨j, hj, hat⟩ := (ih t ht (h.of_mem_args ht)).1 hi
      exact ⟨j, ⟨t, ht, hj⟩, hat⟩
    · rintro ⟨j, ⟨t, ht, hj⟩, hat⟩
      exact ⟨t, ht, (ih t ht (h.of_mem_args ht)).2 ⟨j, hj, hat⟩⟩

end Fits

end Term

namespace Occurrence

variable {r : Reading}

/-- What an occurrence stands for, where it stands. -/
def readBy (r : Reading) (o : Occurrence) : Occurrence := ⟨o.text, o.node, o.term.readBy r⟩

/-- The term of an occurrence that is read is its term, read. -/
@[simp] theorem term_readBy (o : Occurrence) : (o.readBy r).term = o.term.readBy r := rfl

/-- Reading does not change whether an occurrence is a variable. -/
@[simp] theorem isVar_readBy (o : Occurrence) : (o.readBy r).isVar = o.isVar := by
  obtain ⟨text, node, term⟩ := o
  cases term <;> rfl

/-- The gaps in the term that stands here. -/
def gaps (r : Reading) (o : Occurrence) : List Nat := o.term.gaps r

/-- The gaps of a term that is no variable are those of its arguments. -/
theorem flatMap_gaps_args {o : Occurrence} (h : o.isVar = false) :
    o.args.flatMap (gaps r) = o.gaps r := by
  have hargs : o.args.flatMap (gaps r) = o.term.args.flatMap (Term.gaps r) := by
    rw [← map_term_args, List.flatMap_map]
    rfl
  rw [hargs, gaps]
  cases hshape : o.term with
  | var v => simp [isVar, hshape] at h
  | atom | number => rfl
  | compound => exact (Term.gaps_compound ..).symm

/-- An occurrence without gaps is known from the one for which it stands. -/
theorem eq_of_readBy_eq {o o' : Occurrence} {top : Nat} (hr : r.Covers top)
    (ho : o.term.Fits r) (ho' : o'.term.Fits r) (hgaps : o.gaps r = [])
    (h : o.readBy r = o'.readBy r) : o = o' := by
  obtain ⟨text, node, term⟩ := o
  obtain ⟨text', node', term'⟩ := o'
  obtain ⟨rfl, rfl, hterm⟩ := mk.inj h
  exact congrArg (mk text node) (Term.Fits.eq_of_readBy_eq hr ho ho' hgaps hterm)

/-- The arguments stand for the arguments. -/
@[simp] theorem args_readBy (o : Occurrence) : (o.readBy r).args = o.args.map (readBy r) := by
  rw [args, args, term_readBy, Term.args_readBy]
  exact series_map Term.size_readBy ..

end Occurrence

end ClauseResolution
