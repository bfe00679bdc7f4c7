import ClauseResolution.Proofs.Clause.Instance
import ClauseResolution.Proofs.Search.Derivation

/-!
# Pure goals

A goal is pure when it is built only from truth, failure, conjunctions, disjunctions,
equations and calls of predicates. It stays so when variables are numbered or renamed. A
pure goal is read as logic without loss: what a derivable call asks for holds. And a
derivation never needs a number that is not a number: one may be chosen for a variable
that stands only in the body of a clause, but then an atom does as well.
-/

namespace ClauseResolution

namespace Term

/-- A fold gives a value for each term of a list. -/
theorem Visitor.length_visitAll {σ ρ : Type} (v : Visitor σ ρ) (ts : List Term) (s : σ) :
    (v.visitAll ts s).1.length = ts.length := by
  induction ts generalizing s with
  | nil => rfl
  | cons t ts ih => rw [visitAll, List.length_cons, List.length_cons, ih]

/-- The goal is built only from truth, failure, conjunctions, disjunctions, equations and
calls of predicates. In particular no operand is an if-then. -/
inductive IsPure : Term → Prop
  /-- An atom is called as a functor without arguments. -/
  | atom {name : String} (h : IsPure (.apply name [])) : IsPure (.atom name)
  /-- Truth. -/
  | truth {n : Nat} : IsPure (.compound "true" [] n)
  /-- Failure under one of its names. -/
  | failure {functor : String} {n : Nat} (h : functor = "fail" ∨ functor = "false") :
      IsPure (.compound functor [] n)
  /-- A conjunction. -/
  | both {a b : Term} {n : Nat} (ha : IsPure a) (hb : IsPure b) : IsPure (.compound "," [a, b] n)
  /-- A disjunction. -/
  | either {a b : Term} {n : Nat} (ha : IsPure a) (hb : IsPure b) : IsPure (.compound ";" [a, b] n)
  /-- An equation. -/
  | unify {a b : Term} {n : Nat} : IsPure (.compound "=" [a, b] n)
  /-- A call of a predicate. -/
  | predicate {functor : String} {args : List Term} {n : Nat}
      (huser : isControl functor args.length = false) : IsPure (.compound functor args n)

namespace IsPure

variable {t a b : Term} {functor : String} {args : List Term} {m n : Nat}

/-- How many variables are counted does not matter. -/
theorem recount (h : (compound functor args m).IsPure) (n : Nat) :
    (compound functor args n).IsPure := by
  cases h with
  | truth => exact .truth
  | failure hname => exact .failure hname
  | both ha hb => exact .both ha hb
  | either ha hb => exact .either ha hb
  | unify => exact .unify
  | predicate huser => exact .predicate huser

/-- The control constructs of pure goals. -/
theorem functor_of_isControl (h : (compound functor args n).IsPure)
    (hcontrol : isControl functor args.length = true) :
    functor ∈ ["true", "fail", "false", ",", ";", "="] := by
  cases h with
  | truth | both | either | unify => simp
  | failure hname => rcases hname with rfl | rfl <;> simp
  | predicate huser =>
    rw [huser] at hcontrol
    cases hcontrol

/-- The operands of a conjunction or a disjunction are pure. -/
theorem operands (h : (compound functor [a, b] n).IsPure) (hname : functor = "," ∨ functor = ";") :
    a.IsPure ∧ b.IsPure := by
  cases h with
  | both ha hb | either ha hb => exact ⟨ha, hb⟩
  | unify => simp at hname
  | predicate huser => rcases hname with rfl | rfl <;> simp [isControl, Goal.reserved] at huser

/-- A pure goal is no variable. -/
theorem slot?_eq_none (h : t.IsPure) : t.slot? = none := by
  cases h <;> rfl

/-- Renaming variables leaves a goal pure. -/
theorem instantiate (h : t.IsPure) (frame : Array Term) : (t.instantiate frame).IsPure := by
  induction h with
  | atom h =>
    rw [instantiate_atom]
    exact .atom h
  | truth =>
    rw [instantiate_compound, List.map_nil, ite_self]
    exact .truth
  | failure hname =>
    rw [instantiate_compound, List.map_nil, ite_self]
    exact .failure hname
  | both ha hb iha ihb =>
    rw [instantiate_compound]
    split
    · exact .both iha ihb
    · exact .both ha hb
  | either ha hb iha ihb =>
    rw [instantiate_compound]
    split
    · exact .either iha ihb
    · exact .either ha hb
  | unify =>
    rw [instantiate_compound]
    split <;> exact .unify
  | predicate huser =>
    rw [instantiate_compound]
    refine .predicate ?_
    split
    · rwa [List.length_map]
    · exact huser

/-- Numbering variables leaves a goal pure. -/
theorem visit (h : t.IsPure) (numbering : Numbering) :
    (Numbering.visitor.visit t numbering).1.1.IsPure := by
  induction h generalizing numbering with
  | atom h =>
    rw [Numbering.visit_atom]
    exact .atom h
  | truth =>
    rw [Numbering.visit_compound]
    exact .truth
  | failure hname =>
    rw [Numbering.visit_compound]
    exact .failure hname
  | both ha hb iha ihb =>
    rw [Numbering.visit_compound]
    simp only [Visitor.visitAll, List.map_cons, List.map_nil]
    exact .both (iha _) (ihb _)
  | either ha hb iha ihb =>
    rw [Numbering.visit_compound]
    simp only [Visitor.visitAll, List.map_cons, List.map_nil]
    exact .either (iha _) (ihb _)
  | unify =>
    rw [Numbering.visit_compound]
    simp only [Visitor.visitAll, List.map_cons, List.map_nil]
    exact .unify
  | predicate huser =>
    rw [Numbering.visit_compound]
    refine .predicate ?_
    rwa [List.length_map, Visitor.length_visitAll]

/-- A normalized pure goal is pure. -/
theorem normalize (h : t.IsPure) : t.normalize.term.IsPure := by
  have hvisit := h.visit .empty
  rw [← fold_eq_visit] at hvisit
  exact hvisit

end IsPure

end Term

/-- The goal term a call stands for. -/
def Call.term (call : Call) : Term := .apply call.functor (call.args.map Occurrence.term)

/-- A call that is read off a pure goal is pure. -/
theorem Call.isPure_of_ofOccurrence {call : Call} {o : Occurrence}
    (hcall : Call.ofOccurrence o = .ok call) (h : o.term.IsPure) : call.term.IsPure := by
  obtain ⟨text, node, term⟩ := o
  cases term with
  | atom name =>
    cases hcall
    cases h with
    | atom h => exact h
  | compound functor args n =>
    cases hcall
    rw [Call.term, Occurrence.map_term_args]
    exact h.recount 0
  | number | var => cases hcall

namespace Goal

/-- What pure goals ask for. -/
def IsPure : Goal → Prop
  | .truth | .failure | .unify .. | .predicate _ => True
  | .both left right | .either left right => left.term.IsPure ∧ right.term.IsPure
  | .cut | .ifThen .. | .negation _ | .call .. | .differ .. => False

variable {program : Set Clause} {θ : Assignment} {callee : Call} {goal : Goal}

/-- A pure call asks for a pure goal. -/
theorem Asks.isPure (hasks : Asks callee goal) (h : callee.term.IsPure) : goal.IsPure := by
  have hfunctor : isControl callee.functor callee.args.length = true →
      callee.functor ∈ ["true", "fail", "false", ",", ";", "="] := fun hcontrol =>
    h.functor_of_isControl (by rwa [List.length_map])
  cases hasks with
  | truth | failure | unify | predicate => trivial
  | both => exact h.operands (Or.inl rfl)
  | either => exact h.operands (Or.inr rfl)
  | ifThenElse hleft =>
    -- The left operand would be pure as well, but an if-then is not.
    have hcondition := Call.isPure_of_ofOccurrence hleft (h.operands (Or.inr rfl)).1
    simpa using hcondition.functor_of_isControl (by simp [isControl, Goal.reserved])
  | negation hname =>
    rcases hname with rfl | rfl <;> simp [isControl, Goal.reserved] at hfunctor
  | cut | ifThen | call | differ => simp [isControl, Goal.reserved] at hfunctor

end Goal

namespace Derivable

variable {program : Set Clause} {a b : Term} {functor : String} {args : List Term} {n : Nat}

/-- A conjunction is derived from both goals. -/
theorem of_both (h : Derivable program (.compound functor [a, b] n)) (hname : functor = ",") :
    Derivable program a ∧ Derivable program b := by
  cases h with
  | both ha hb => exact ⟨ha, hb⟩
  | left | right | ifThen | call | unify | differ => simp at hname
  | predicate huser => simp [hname, isControl, Goal.reserved] at huser

/-- A disjunction is derived from one of the goals. -/
theorem of_either (h : Derivable program (.compound functor [a, b] n)) (hname : functor = ";") :
    Derivable program a ∨ Derivable program b := by
  cases h with
  | left ha => exact Or.inl ha
  | right hb => exact Or.inr hb
  | both | ifThen | call | unify | differ => simp at hname
  | predicate huser => simp [hname, isControl, Goal.reserved] at huser

/-- An equation is derivable only between terms that are the same. -/
theorem of_unify (h : Derivable program (.compound functor [a, b] n)) (hname : functor = "=") :
    a.same b := by
  cases h with
  | unify h => exact h
  | both | left | right | ifThen | call | differ => simp at hname
  | predicate huser => simp [hname, isControl] at huser

/-- A goal of the user is derived by a clause. -/
theorem of_predicate (h : Derivable program (.compound functor args n))
    (huser : isControl functor args.length = false) :
    ∃ clause ∈ program, ∃ θ : Assignment,
      (Term.compound functor args n).same (clause.head.toTerm.assign θ) ∧
        Derivable program (clause.body.assign θ) := by
  cases h with
  | predicate _ hclause hhead hbody => exact ⟨_, hclause, _, hhead, hbody⟩
  | negation hname => rcases hname with rfl | rfl <;> simp [isControl, Goal.reserved] at huser
  | truth | cut | both | left | right | ifThen | call | unify | differ =>
    simp [isControl, Goal.reserved] at huser

end Derivable

/-- What a derivable pure call asks for holds. -/
theorem Goal.Asks.holds_of_derivable {program : Set Clause} {θ : Assignment} {callee : Call}
    {goal : Goal} (hasks : Asks callee goal) (hpure : goal.IsPure)
    (h : Derivable program (callee.assign θ)) : goal.Holds program θ := by
  cases hasks with
  | truth => trivial
  | failure hname => exact Derivable.not_failure hname h
  | both => exact h.of_both rfl
  | either => exact h.of_either rfl
  | unify => exact h.of_unify rfl
  | predicate => exact h
  | cut | ifThenElse | ifThen | negation | call | differ => exact hpure.elim

/-- A derivable goal is derivable as the call that is read off it. -/
theorem Call.derivable_assign {program : Set Clause} {θ : Assignment} {call : Call}
    {o : Occurrence} (hcall : Call.ofOccurrence o = .ok call)
    (h : Derivable program (o.term.assign θ)) : Derivable program (call.assign θ) := by
  obtain ⟨text, node, term⟩ := o
  cases term with
  | atom name =>
    cases hcall
    cases h with
    | atom h => exact h
  | compound functor args n =>
    cases hcall
    rwa [Call.assign, Occurrence.map_assign_args, Term.apply, ← Term.assign_compound]
  | number | var => cases hcall

mutual

/-- The term with an atom in the place of every number that is not a number. -/
def Term.clear : Term → Term
  | .number value => if value.isNaN then .atom "nan" else .number value
  | .compound functor args varCount => .compound functor (Term.clearAll args) varCount
  | t => t

/-- The terms of a list, each of them cleared. -/
def Term.clearAll : List Term → List Term
  | [] => []
  | t :: ts => t.clear :: Term.clearAll ts

end

/-- The assignment of the cleared terms. -/
def Assignment.clear (θ : Assignment) : Assignment := fun slot => (θ slot).map Term.clear

namespace Term

variable {t : Term} {θ : Assignment}

/-- Terms are cleared one by one. -/
theorem clearAll_eq_map (ts : List Term) : clearAll ts = ts.map clear := by
  induction ts with
  | nil => rfl
  | cons t ts ih => rw [clearAll, ih, List.map_cons]

/-- Clearing a compound term clears its arguments. -/
@[simp] theorem clear_compound (f : String) (as : List Term) (m : Nat) :
    (compound f as m).clear = .compound f (as.map clear) m := by
  rw [clear, clearAll_eq_map]

/-- A term that is cleared contains no number that is not a number. -/
theorem isNaNFree_clear (t : Term) : t.clear.isNaNFree := by
  induction t with
  | atom | var => rfl
  | number value =>
    rw [clear]
    split
    · rfl
    · next h => simpa [isNaNFree] using h
  | compound f as m ih =>
    rw [clear_compound, isNaNFree_compound]
    intro t ht
    obtain ⟨u, hu, rfl⟩ := List.mem_map.1 ht
    exact ih u hu

/-- Where nothing is to be cleared, nothing changes. -/
theorem clear_eq_self (h : t.isNaNFree) : t.clear = t := by
  induction t with
  | atom | var => rfl
  | number value =>
    have hvalue : value.isNaN = false := by simpa [isNaNFree] using h
    rw [clear, hvalue]
    rfl
  | compound f as m ih =>
    rw [isNaNFree_compound] at h
    rw [clear_compound]
    congr 1
    exact (List.map_congr_left fun t ht => ih t ht (h t ht)).trans (List.map_id as)

/-- Only what is assigned has to be cleared. -/
theorem clear_assign (h : t.isNaNFree) : (t.assign θ).clear = t.assign θ.clear := by
  induction t with
  | atom => rfl
  | number => exact clear_eq_self h
  | var v =>
    rw [assign, assign]
    cases hv : v.index with
    | none => rfl
    | some slot => cases hvalue : θ slot <;> simp [Assignment.clear, hvalue, clear]
  | compound f as m ih =>
    rw [isNaNFree_compound] at h
    rw [assign_compound, assign_compound, clear_compound, List.map_map]
    congr 1
    exact List.map_congr_left fun t ht => ih t ht (h t ht)

/-- Clearing a term with further arguments clears all of it. -/
theorem addArgs_clear {goal : Term} {extra : List Term} (h : t.addArgs extra = some goal) :
    t.clear.addArgs (extra.map clear) = some goal.clear := by
  cases t with
  | atom name =>
    cases h
    simp [clear, addArgs, apply]
  | compound f as m =>
    cases h
    simp [addArgs, apply]
  | number | var => cases h

end Term

/-- An assignment that is cleared has no number that is not a number. -/
theorem Assignment.nanFree_clear (θ : Assignment) : θ.clear.NaNFree := by
  intro slot t ht
  obtain ⟨u, _, rfl⟩ := Option.map_eq_some_iff.1 ht
  exact u.isNaNFree_clear

/-- A derivable goal is derivable when it is cleared, if the clauses have nothing to be
cleared. -/
theorem Derivable.clear {program : Set Clause} {t : Term}
    (hprogram : ∀ clause ∈ program, clause.head.toTerm.isNaNFree ∧ clause.body.isNaNFree)
    (h : Derivable program t) : Derivable program t.clear := by
  induction h with
  | atom h => exact .atom h
  | truth => exact .truth
  | cut => exact .cut
  | both _ _ iha ihb =>
    rw [Term.clear_compound]
    exact .both iha ihb
  | left _ iha =>
    rw [Term.clear_compound]
    exact .left iha
  | right _ ihb =>
    rw [Term.clear_compound]
    exact .right ihb
  | ifThen _ _ iha ihb =>
    rw [Term.clear_compound]
    exact .ifThen iha ihb
  | negation hname =>
    rw [Term.clear_compound]
    exact .negation hname
  | call hgoal _ ih =>
    rw [Term.clear_compound]
    exact .call (Term.addArgs_clear hgoal) ih
  | unify h =>
    have hfree := Term.isNaNFree_of_same (Term.same_symm h)
    rw [Term.clear_compound, List.map_cons, List.map_cons, List.map_nil,
      Term.clear_eq_self (Term.isNaNFree_of_same h), Term.clear_eq_self hfree]
    exact .unify h
  | differ =>
    rw [Term.clear_compound]
    exact .differ
  | @predicate functor args n clause θ huser hclause hhead _ ih =>
    -- The goal and the head have nothing to be cleared, since they are the same.
    obtain ⟨hfreeHead, hfreeBody⟩ := hprogram clause hclause
    have hinstance := Term.clear_eq_self (Term.isNaNFree_of_same (Term.same_symm hhead))
    rw [Term.clear_assign hfreeHead] at hinstance
    rw [Term.clear_eq_self (Term.isNaNFree_of_same hhead)]
    rw [Term.clear_assign hfreeBody] at ih
    rw [← hinstance] at hhead
    exact .predicate huser hclause hhead ih

end ClauseResolution
