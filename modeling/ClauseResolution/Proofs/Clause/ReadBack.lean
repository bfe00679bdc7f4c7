import ClauseResolution.Proofs.Clause.Normalization
import ClauseResolution.Proofs.Clause.Variants

/-!
# Clauses read back from their terms

A clause is written as a rule under the neck, and as its head alone when it is a fact. Numbering
its head and its body again changes nothing, so a clause is read back from its term wherever the
reader takes the same branch as the writer. The only clauses for which it does not are facts whose
head is under the neck itself with two arguments: these are read as rules.
-/

namespace ClauseResolution

namespace Term

variable {t : Term}

/-- Changing terms without changing their extents does not change the sum of the extents. -/
theorem extents_map {f : Term → Term} {ts : List Term} (h : ∀ t ∈ ts, (f t).extent = t.extent) :
    extents (ts.map f) = extents ts := by
  induction ts with
  | nil => rfl
  | cons t ts ih =>
    obtain ⟨ht, hts⟩ := List.forall_mem_cons.1 h
    rw [List.map_cons, extents, extents, ht, ih hts]

/-- Replacing variables by variables does not change the extent of a term. -/
theorem extent_mapVars (f : Var → Var) (t : Term) : (t.mapVars f).extent = t.extent := by
  induction t with
  | atom | number | var => rfl
  | compound functor args varCount ih =>
    rw [mapVars_compound, extent, extent, extents_map ih]

/-- Counting variables does not change the extent of a term. -/
theorem extent_recount (t : Term) : t.recount.extent = t.extent := by
  induction t with
  | atom | number | var => rfl
  | compound functor args varCount ih =>
    rw [recount_compound, extent, extent, extents_map ih]

end Term

namespace Numbering

variable {N : Numbering}

/-- Numbering changes no shape. -/
theorem extent_numbered (N : Numbering) (t : Term) : (N.numbered t).extent = t.extent := by
  rw [numbered, Term.extent_recount, Term.extent_mapVars]

/-- The arguments of a term are numbered one by one. -/
theorem args_numbered (N : Numbering) (t : Term) :
    (N.numbered t).args = t.args.map N.numbered := by
  rw [numbered, Term.args_recount, Term.args_mapVars, List.map_map]
  rfl

/-- Terms that are numbered together are numbered again without a change. -/
theorem numbered_again {ts : List Term} {N N' : Numbering}
    (hN : N = empty.after (ts.flatMap Term.namedVars))
    (hN' : N' = empty.after ((ts.map N.numbered).flatMap Term.namedVars)) :
    (∀ t ∈ ts, N'.numbered (N.numbered t) = N.numbered t) ∧ N'.slotNames = N.slotNames := by
  let t : Term := .apply "" ts
  have hfirst : t.numbering = N := by
    rw [hN, Term.numbering]
    exact congrArg empty.after (Term.namedVars_compound ..)
  have hargs : (N.numbered t).args = ts.map N.numbered := args_numbered N t
  have hsecond : (N.numbered t).numbering = N' := by
    rw [hN', ← hargs, Term.numbering]
    exact congrArg empty.after (Term.namedVars_compound ..)
  have htwice := t.normalize_numbered
  rw [Term.normalize_eq, Term.normalize_eq, hfirst, hsecond] at htwice
  obtain ⟨hterm, hvars⟩ := Normalized.mk.inj htwice
  constructor
  · have hmap := congrArg Term.args hterm
    rw [args_numbered, hargs, List.map_map] at hmap
    exact List.map_inj_left.1 hmap
  · rw [← map_name_vars, ← map_name_vars, hvars]

end Numbering

namespace Clause

variable {clause : Clause} {text : Nat} {head body t : Term} {parts : Compound}

/-- A head has the same variables in whichever form it is kept. -/
theorem namedVars_of_callable? (h : t.callable? = some parts) :
    parts.toTerm.namedVars = t.namedVars := by
  cases t with
  | atom name =>
    cases h
    exact Term.namedVars_compound ..
  | compound => cases h; rfl
  | number | var => cases h

/-- A head has the same extent in whichever form it is kept. -/
theorem extent_of_callable? (h : t.callable? = some parts) : parts.toTerm.extent = t.extent := by
  cases t with
  | atom | compound => cases h; rfl
  | number | var => cases h

/-- A clause is made of its own head and body again. -/
theorem rule_again (h : rule text head body = .ok clause) :
    rule text clause.head.toTerm clause.body = .ok clause := by
  obtain ⟨hhead, hbody, hnames⟩ := numbered_of_rule h
  generalize hN : Numbering.empty.after ([head, body].flatMap Term.namedVars) = N
    at hhead hbody hnames
  obtain ⟨clause', hrule⟩ : ∃ clause', rule text clause.head.toTerm clause.body = .ok clause' := by
    refine exists_rule_iff.2 ⟨rfl, fun value hvalue => ?_⟩
    have hnumber := (exists_rule_iff.1 ⟨clause, h⟩).2
    rw [← hbody] at hvalue
    cases body with
    | number other => exact hnumber other rfl
    | atom | var | compound => cases hvalue
  obtain ⟨hhead', hbody', hnames'⟩ := numbered_of_rule hrule
  have hvars : [clause.head.toTerm, clause.body].flatMap Term.namedVars =
      ([head, body].map N.numbered).flatMap Term.namedVars := by
    simp [namedVars_of_callable? hhead, hbody]
  generalize hN' : Numbering.empty.after ([clause.head.toTerm, clause.body].flatMap Term.namedVars)
    = N' at hhead' hbody' hnames'
  obtain ⟨hterms, hslots⟩ := Numbering.numbered_again hN.symm (hvars ▸ hN'.symm)
  have hfixed : N'.numbered clause.head.toTerm = clause.head.toTerm := by
    refine callable?_keeps (motive := fun t => N'.numbered t = t) (fun name => ?_)
      (hterms head (by simp)) hhead
    rfl
  have hheads : clause'.head = clause.head := by
    rw [hfixed] at hhead'
    exact (Option.some.inj hhead').symm
  have hbodies : clause'.body = clause.body := by
    rw [← hbody', ← hbody]
    exact hterms body (by simp)
  have hlists : clause'.varNames = clause.varNames := by rw [← hnames', ← hnames, hslots]
  have htexts : clause'.text = clause.text := by rw [text_of_rule hrule, text_of_rule h]
  have hsame : clause' = clause := by
    cases clause
    cases clause'
    simp_all
  exact hsame ▸ hrule

/-- The text in which a clause is written makes no other difference. -/
theorem rule_withText (h : rule text head body = .ok clause) (text' : Nat) :
    rule text' head body = .ok { clause with text := text' } := by
  unfold rule at h ⊢
  split at h
  · next hhead =>
    rw [if_pos hhead]
    split at h
    · cases h
    · dsimp only at h ⊢
      split at h
      · cases h
        rfl
      · cases h
  · cases h

/-- The clause is a fact that is written as a rule would be: its head is under the neck, with two
arguments. -/
def IsNeckFact (clause : Clause) : Prop :=
  clause.isFact = true ∧ clause.head.functor = neck ∧ clause.head.arity = 2

/-- What is no rule under the neck with two arguments is read as the head of a fact. -/
theorem ofTerm_compound {functor : String} {args : List Term} {varCount : Nat}
    (h : ¬ (functor = neck ∧ args.length = 2)) :
    ofTerm text (.compound functor args varCount) =
      rule text (.compound functor args varCount) truth := by
  unfold ofTerm
  split
  · next heq =>
    cases heq
    exact if_neg fun hneck => h ⟨hneck, rfl⟩
  · rfl

/-- A clause that was made of a head and a body, or of a term, is read back from its term with the
same head, body and variables, wherever the term is written. The only exception is a fact whose head
is under the neck with two arguments, and that one is never read back. -/
theorem ofTerm_toTerm_iff (h : clause.IsBuilt ∨ ∃ text t, ofTerm text t = .ok clause) (text : Nat) :
    ofTerm text clause.toTerm = .ok { clause with text := text } ↔ ¬ clause.IsNeckFact := by
  obtain ⟨_, head, body, hrule⟩ : clause.IsBuilt := h.elim id fun ⟨_, _, ht⟩ => isBuilt_of_ofTerm ht
  have hagain := rule_withText (rule_again hrule) text
  constructor
  · rintro hread ⟨hfact, hfunctor, harity⟩
    obtain ⟨left, right, hargs⟩ := List.length_eq_two.1 harity
    -- The head would be read from the first argument of the head, which is smaller.
    have hneck : rule text left right = .ok { clause with text := text } := by
      rw [toTerm, if_pos hfact, Compound.toTerm, hfunctor, hargs] at hread
      exact hread
    have hextent := extent_of_callable? (numbered_of_rule hneck).1
    rw [Numbering.extent_numbered, Compound.toTerm, Term.extent, hargs, Term.extents] at hextent
    omega
  · intro hother
    rw [toTerm]
    split
    · next hfact =>
      refine (ofTerm_compound fun hneck => hother ⟨hfact, hneck⟩).trans ?_
      rw [← isFact_iff.1 hfact]
      exact hagain
    · exact hagain

/-- The rule `:-(X, Y) :- p(Y, X), true`, whose head is under the neck, is read back. -/
theorem ofTerm_toTerm_nested :
    let x : Var := ⟨"X", none⟩
    let y : Var := ⟨"Y", some 7⟩
    let head : Term := .apply neck [.var x, .var y]
    let body : Term := .apply "," [.apply "p" [.var y, .var x], truth]
    ∃ clause, rule 0 head body = .ok clause ∧ clause.head.functor = neck ∧
      clause.varNames = ["X", "Y"] ∧ ofTerm 1 clause.toTerm = .ok { clause with text := 1 } := by
  intro x y head body
  let x' : Term := .var ⟨"X", some 0⟩
  let y' : Term := .var ⟨"Y", some 1⟩
  let clause : Clause :=
    ⟨⟨neck, [x', y'], 2⟩, .compound "," [.compound "p" [y', x'] 2, truth] 2, ["X", "Y"], 0⟩
  have hrule : rule 0 head body = .ok clause := by with_unfolding_all rfl
  have hother : ¬ clause.IsNeckFact := fun hneck => absurd hneck.1 (by decide)
  exact ⟨clause, hrule, rfl, rfl, (ofTerm_toTerm_iff (.inl ⟨0, head, body, hrule⟩) 1).2 hother⟩

/-- The fact `:-(a, b)` is read as a rule with head `a` and body `b`. -/
theorem neckFact_not_readBack :
    ∃ clause clause' : Clause, rule 0 (.apply neck [.atom "a", .atom "b"]) truth = .ok clause ∧
      clause.key = ":-/2" ∧ clause.isFact = true ∧
      ofTerm 1 clause.toTerm = .ok clause' ∧ clause'.key = "a/0" ∧ clause'.isFact = false := by
  refine ⟨⟨⟨neck, [.atom "a", .atom "b"], 0⟩, truth, [], 0⟩, ⟨⟨"a", [], 0⟩, .atom "b", [], 1⟩, ?_⟩
  exact ⟨by with_unfolding_all rfl, by decide, rfl, by with_unfolding_all rfl, by decide, rfl⟩

end Clause

end ClauseResolution
