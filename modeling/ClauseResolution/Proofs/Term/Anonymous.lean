import ClauseResolution.Term.Leaves
import ClauseResolution.Term.Occurrence
import Mathlib.Data.List.Nodup
import Mathlib.Order.Nat

/-!
# Where the anonymous variable stands

A place at which the anonymous variable stands is a blank. Different arguments of one term
have different blanks. When terms are taken apart again and again, a term with a blank is
therefore met only once: what is met later has fewer nodes, or other blanks.
-/

namespace ClauseResolution

namespace Term

/-- The anonymous variable does not stand in the term. -/
def isAnonymousFree (t : Term) : Bool :=
  t.leaves.all fun
    | .var v => !v.isAnonymous
    | _ => true

/-- A compound term has no anonymous variables when its arguments have none. -/
@[simp] theorem isAnonymousFree_compound {functor : String} {args : List Term} {varCount : Nat} :
    (compound functor args varCount).isAnonymousFree ↔ ∀ t ∈ args, t.isAnonymousFree := by
  simp [isAnonymousFree]

/-- A variable has no anonymous variables when it is named. -/
theorem isAnonymousFree_var {v : Var} : (var v).isAnonymousFree ↔ v.isAnonymous = false := by
  simp [isAnonymousFree]

/-- The nodes of terms that follow each other are counted one after the other. -/
theorem countNodes_append (counted : Nat) (ts us : List Term) :
    countNodes counted (ts ++ us) = countNodes (countNodes counted ts) us := by
  fun_induction countNodes counted ts with
  | case1 => rfl
  | case2 counted t ts ih =>
    rw [List.cons_append, countNodes, ← List.append_assoc, ih]

/-- The first of some terms takes as many nodes as it has. -/
theorem countNodes_cons (t : Term) (ts : List Term) :
    countNodes 0 (t :: ts) = t.size + countNodes 0 ts := by
  have hsplit : countNodes 0 (t :: ts) = countNodes (0 + t.size) ts := by
    rw [Nat.zero_add]
    exact countNodes_append 0 [t] ts
  rw [hsplit, countNodes_add, Nat.add_comm]

/-- A compound term has one node more than its arguments together. -/
theorem size_compound (functor : String) (args : List Term) (varCount : Nat) :
    (compound functor args varCount).size = 1 + countNodes 0 args := size_eq _

end Term

mutual

/-- The nodes of a text at which the anonymous variable stands in a term that begins at a
node. -/
def Term.blanks (node : Nat) : Term → List Nat
  | .var v => if v.isAnonymous then [node] else []
  | .compound _ args _ => Term.blanksAll (node + 1) args
  | _ => []

/-- The nodes at which it stands in terms that follow each other. -/
def Term.blanksAll (node : Nat) : List Term → List Nat
  | [] => []
  | t :: ts => t.blanks node ++ Term.blanksAll (node + t.size) ts

end

namespace Term

/-- Blanks of terms that follow each other lie where these terms lie. -/
theorem blanksAll_bounds {ts : List Term} {start b : Nat}
    (h : ∀ t ∈ ts, ∀ node, b ∈ t.blanks node → node ≤ b ∧ b < node + t.size)
    (hmem : b ∈ blanksAll start ts) : start ≤ b ∧ b < start + countNodes 0 ts := by
  induction ts generalizing start with
  | nil => simp [blanksAll] at hmem
  | cons t ts ih =>
    obtain ⟨ht, hrest⟩ := List.forall_mem_cons.1 h
    rw [blanksAll] at hmem
    rw [countNodes_cons]
    rcases List.mem_append.1 hmem with hfirst | hlater
    · have hbounds := ht start hfirst
      omega
    · have hbounds := ih hrest hlater
      omega

/-- Blanks are nodes of the term. -/
theorem blanks_bounds {t : Term} {node b : Nat} (h : b ∈ t.blanks node) :
    node ≤ b ∧ b < node + t.size := by
  induction t generalizing node with
  | atom | number => simp [blanks] at h
  | var v =>
    rw [blanks] at h
    split at h
    · obtain rfl := List.mem_singleton.1 h
      exact ⟨le_refl _, by rw [size_eq]; omega⟩
    · cases h
  | compound functor args varCount ih =>
    rw [blanks] at h
    rw [size_compound]
    have hbounds := blanksAll_bounds (fun t ht _ hb => ih t ht hb) h
    omega

/-- No blank is counted twice. -/
theorem nodup_blanks (t : Term) (node : Nat) : (t.blanks node).Nodup := by
  induction t generalizing node with
  | atom | number => simp [blanks]
  | var v =>
    rw [blanks]
    split <;> simp
  | compound functor args varCount ih =>
    rw [blanks]
    generalize node + 1 = start
    induction args generalizing start with
    | nil => simp [blanksAll]
    | cons t ts ihts =>
      obtain ⟨ht, hrest⟩ := List.forall_mem_cons.1 ih
      rw [blanksAll]
      refine List.Nodup.append (ht start) (ihts hrest _) fun b hb hb' => ?_
      have hbefore := blanks_bounds hb
      have hafter := blanksAll_bounds (fun t _ _ hb => blanks_bounds hb) hb'
      omega

/-- Without blanks the anonymous variable does not stand in the term. -/
theorem blanks_eq_nil_iff {t : Term} {node : Nat} : t.blanks node = [] ↔ t.isAnonymousFree := by
  induction t generalizing node with
  | atom | number => simp [blanks, isAnonymousFree]
  | var v => simp [blanks, isAnonymousFree_var]
  | compound functor args varCount ih =>
    rw [blanks, isAnonymousFree_compound]
    generalize node + 1 = start
    induction args generalizing start with
    | nil => simp [blanksAll]
    | cons t ts ihts =>
      obtain ⟨ht, hrest⟩ := List.forall_mem_cons.1 ih
      rw [blanksAll, List.append_eq_nil_iff, ht, ihts hrest, List.forall_mem_cons]

/-- An argument has fewer nodes. -/
theorem size_lt_of_mem_args {t u : Term} (ht : t ∈ u.args) : t.size < u.size := by
  rw [size_eq u]
  generalize u.args = ts at ht
  induction ts with
  | nil => cases ht
  | cons v ts ih =>
    rw [countNodes_cons]
    rcases List.mem_cons.1 ht with rfl | ht
    · omega
    · have hlt := ih ht
      omega

end Term

namespace Occurrence

/-- The places at which the anonymous variable stands. -/
def blanks (o : Occurrence) : List (Nat × Nat) := (o.term.blanks o.node).map (o.text, ·)

/-- No blank is listed twice. -/
theorem nodup_blanks (o : Occurrence) : o.blanks.Nodup :=
  (o.term.nodup_blanks o.node).map fun _ _ h => (Prod.mk.inj h).2

/-- A term has no blanks when it has no anonymous variables. -/
theorem blanks_eq_nil_iff {o : Occurrence} : o.blanks = [] ↔ o.term.isAnonymousFree := by
  rw [blanks, List.map_eq_nil_iff, Term.blanks_eq_nil_iff]

/-- The blanks of terms that follow each other are those of their text. -/
theorem flatMap_blanks_series (text node : Nat) (ts : List Term) :
    (series text node ts).flatMap blanks = (Term.blanksAll node ts).map (text, ·) := by
  fun_induction series text node ts with
  | case1 => rfl
  | case2 => simp [blanks, Term.blanksAll]
  | case3 node t ts _ ih =>
    rw [List.flatMap_cons, ih, Term.blanksAll, List.map_append]
    rfl

/-- The blanks of a compound term are those of its arguments. -/
theorem flatMap_blanks_args {o : Occurrence} (h : o.isVar = false) :
    o.args.flatMap blanks = o.blanks := by
  obtain ⟨text, node, term⟩ := o
  rw [args, flatMap_blanks_series, blanks]
  cases term with
  | var => simp [isVar] at h
  | atom | number => rfl
  | compound => rfl

/-- Some occurrences have different blanks, and share blanks only with larger ones that were
entered before. -/
structure Distinct (entered xs : List Occurrence) : Prop where
  /-- No blank is met twice. -/
  nodup : (xs.flatMap blanks).Nodup
  /-- What was entered and has a blank in common is larger. -/
  smaller : ∀ a ∈ entered, ∀ x ∈ xs, ∀ b ∈ a.blanks, b ∈ x.blanks → x.term.size < a.term.size

namespace Distinct

variable {entered xs : List Occurrence} {x y : Occurrence}

/-- At the start nothing was entered. -/
theorem start (h : (xs.flatMap blanks).Nodup) : Distinct [] xs := ⟨h, by simp⟩

/-- Without the first of them, occurrences with different blanks still have different ones. -/
theorem tail (h : Distinct entered (x :: xs)) : Distinct entered xs := by
  refine ⟨(List.nodup_append.1 h.nodup).2.1, fun a ha z hz => ?_⟩
  exact h.smaller a ha z (List.mem_cons_of_mem _ hz)

/-- An occurrence that was entered before has no blank. -/
theorem isAnonymousFree_of_mem (h : Distinct entered (x :: xs)) (hmem : x ∈ entered) :
    x.term.isAnonymousFree := by
  rw [← blanks_eq_nil_iff]
  refine List.eq_nil_iff_forall_not_mem.2 fun b hb => ?_
  exact lt_irrefl _ (h.smaller x hmem x List.mem_cons_self b hb hb)

/-- An occurrence is entered, or one without blanks in its place, and its arguments follow. -/
theorem enter (h : Distinct entered (x :: xs)) (hself : y = x ∨ y.term.isAnonymousFree)
    (hvar : y.isVar = false) : Distinct (y :: entered) (y.args ++ xs) := by
  have hargs := flatMap_blanks_args hvar
  have hmem : ∀ z ∈ y.args, ∀ b ∈ z.blanks, b ∈ y.blanks := fun z hz b hb => by
    rw [← hargs]
    exact List.mem_flatMap.2 ⟨z, hz, hb⟩
  have hsize : ∀ z ∈ y.args, z.term.size < y.term.size := fun z hz =>
    Term.size_lt_of_mem_args (by rw [← map_term_args]; exact List.mem_map_of_mem hz)
  have hblanks : ∀ b ∈ y.blanks, y = x := fun b hb => by
    rcases hself with heq | hfree
    · exact heq
    · rw [blanks_eq_nil_iff.2 hfree] at hb
      cases hb
  obtain ⟨hnodup, hsmaller⟩ := h
  rw [List.flatMap_cons, List.nodup_append] at hnodup
  obtain ⟨hx, hxs, hdisjoint⟩ := hnodup
  constructor
  · rw [List.flatMap_append, hargs, List.nodup_append]
    refine ⟨y.nodup_blanks, hxs, fun b hb c hc => hdisjoint b ?_ c hc⟩
    rwa [← hblanks b hb]
  · intro a ha z hz b hb hbz
    rcases List.mem_append.1 hz with harg | hlater
    · have hy := hmem z harg b hbz
      rcases List.mem_cons.1 ha with rfl | hbefore
      · exact hsize z harg
      · have hlt := hsmaller a hbefore x List.mem_cons_self b hb (hblanks b hy ▸ hy)
        rw [← hblanks b hy] at hlt
        exact (hsize z harg).trans hlt
    · rcases List.mem_cons.1 ha with rfl | hbefore
      · have hy : b ∈ x.blanks := by rwa [← hblanks b hb]
        exact absurd rfl (hdisjoint b hy b (List.mem_flatMap.2 ⟨z, hlater, hbz⟩))
      · exact hsmaller a hbefore z (List.mem_cons_of_mem _ hlater) b hb hbz

/-- Fewer occurrences may count as entered. -/
theorem forget (h : Distinct (y :: entered) xs) : Distinct entered xs :=
  ⟨h.nodup, fun a ha => h.smaller a (List.mem_cons_of_mem _ ha)⟩

end Distinct

end Occurrence

end ClauseResolution
