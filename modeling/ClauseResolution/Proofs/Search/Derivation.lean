import ClauseResolution.Proofs.Term.Assignment
import ClauseResolution.Search.Goal
import Mathlib.Data.Set.Defs

/-!
# Derivations

A goal is derivable from a program when there is a finite derivation in which control
constructs are read as logic: a conjunction needs both goals, a disjunction one of them,
an if-then its condition and its consequent. Cuts and negations are read as true. A goal
of the user is an instance of the head of a clause, and the same instance of the body is
derivable. An atom is the same goal as its functor without arguments. Derivability does
not tell terms apart that are the same.
-/

namespace ClauseResolution

/-- The functor and arity of a control construct, or a name that is kept for them. -/
def isControl (functor : String) (arity : Nat) : Bool :=
  Goal.reserved.contains functor ||
    [("true", 0), ("fail", 0), ("false", 0), ("not", 1), ("=", 2), ("\\=", 2)].contains
      (functor, arity)

/-- The control constructs, by functor and arguments. -/
theorem isControl_iff {α : Type} {functor : String} {args : List α} :
    isControl functor args.length ↔ functor ∈ Goal.reserved ∨ functor = "true" ∧ args = [] ∨
      functor = "fail" ∧ args = [] ∨ functor = "false" ∧ args = [] ∨
      (functor = "not" ∧ ∃ a, args = [a]) ∨ (functor = "=" ∧ ∃ a b, args = [a, b]) ∨
      functor = "\\=" ∧ ∃ a b, args = [a, b] := by
  simp only [isControl, Bool.or_eq_true, List.contains_iff_mem, List.mem_cons, Prod.mk.injEq,
    List.not_mem_nil, or_false, List.length_eq_zero_iff, List.length_eq_one_iff,
    List.length_eq_two]

/-- A callable term with further arguments. -/
def Term.addArgs : Term → List Term → Option Term
  | .atom name, extra => some (.apply name extra)
  | .compound functor args _, extra => some (.apply functor (args ++ extra))
  | _, _ => none

/-- The goal has a finite derivation from the clauses of a program. -/
inductive Derivable (program : Set Clause) : Term → Prop
  /-- An atom is its functor without arguments. -/
  | atom {name : String} (h : Derivable program (.apply name [])) : Derivable program (.atom name)
  /-- `true` holds. -/
  | truth {n : Nat} : Derivable program (.compound "true" [] n)
  /-- A cut is read as true. -/
  | cut {n : Nat} : Derivable program (.compound "!" [] n)
  /-- A conjunction needs both goals. -/
  | both {a b : Term} {n : Nat} (ha : Derivable program a) (hb : Derivable program b) :
      Derivable program (.compound "," [a, b] n)
  /-- A disjunction holds by its left goal. -/
  | left {a b : Term} {n : Nat} (ha : Derivable program a) :
      Derivable program (.compound ";" [a, b] n)
  /-- A disjunction holds by its right goal. -/
  | right {a b : Term} {n : Nat} (hb : Derivable program b) :
      Derivable program (.compound ";" [a, b] n)
  /-- An if-then needs the condition and the consequent. -/
  | ifThen {a b : Term} {n : Nat} (ha : Derivable program a) (hb : Derivable program b) :
      Derivable program (.compound "->" [a, b] n)
  /-- A negation is read as true. -/
  | negation {functor : String} {a : Term} {n : Nat} (h : functor = "\\+" ∨ functor = "not") :
      Derivable program (.compound functor [a] n)
  /-- A call needs the goal with the further arguments. -/
  | call {target goal : Term} {extra : List Term} {n : Nat}
      (hgoal : target.addArgs extra = some goal) (h : Derivable program goal) :
      Derivable program (.compound "call" (target :: extra) n)
  /-- An equation needs terms that are the same. -/
  | unify {a b : Term} {n : Nat} (h : a.same b) : Derivable program (.compound "=" [a, b] n)
  /-- An inequation is read as true. -/
  | differ {a b : Term} {n : Nat} : Derivable program (.compound "\\=" [a, b] n)
  /-- A goal of the user needs a clause: it is an instance of the head, and the same
  instance of the body holds. -/
  | predicate {functor : String} {args : List Term} {n : Nat} {clause : Clause} {θ : Assignment}
      (huser : isControl functor args.length = false) (hclause : clause ∈ program)
      (hhead : (Term.compound functor args n).same (clause.head.toTerm.assign θ))
      (hbody : Derivable program (clause.body.assign θ)) :
      Derivable program (.compound functor args n)

namespace Derivable

variable {program : Set Clause} {a b : Term}

/-- Failure has no derivation. -/
theorem not_failure {functor : String} (h : functor = "fail" ∨ functor = "false") {n : Nat} :
    ¬ Derivable program (.compound functor [] n) := by
  intro hderivable
  cases hderivable with
  | truth | cut => simp at h
  | predicate huser =>
    rcases h with rfl | rfl <;> simp [isControl] at huser

/-- Further arguments are added to terms that are the same with the same result. -/
theorem addArgs_same {extra extra' : List Term} {goal : Term} (hsame : a.same b)
    (hextra : List.Forall₂ (fun a b => (a.same b : Prop)) extra extra')
    (hgoal : a.addArgs extra = some goal) :
    ∃ goal', b.addArgs extra' = some goal' ∧ goal.same goal' := by
  cases a with
  | atom name =>
    cases hgoal
    have hnode := (Term.same_iff_sameNode rfl).1 hsame
    cases b <;> simp only [Term.sameNode, Bool.false_eq_true, beq_iff_eq] at hnode
    exact ⟨_, rfl, Term.same_compound.2 ⟨hnode, hextra⟩⟩
  | compound functor args n =>
    cases hgoal
    obtain ⟨args', m, rfl, hargs⟩ := Term.same_compound_left.1 hsame
    exact ⟨_, rfl, Term.same_compound.2 ⟨rfl, List.rel_append hargs hextra⟩⟩
  | number | var => cases hgoal

/-- A goal that is the same as a derivable one is derivable. -/
theorem of_same (h : Derivable program a) (hsame : a.same b) : Derivable program b := by
  induction h generalizing b with
  | @atom name h ih =>
    have hnode := (Term.same_iff_sameNode rfl).1 hsame
    cases b <;> simp only [Term.sameNode, Bool.false_eq_true, beq_iff_eq] at hnode
    exact hnode ▸ .atom h
  | truth =>
    obtain ⟨args, n, rfl, hargs⟩ := Term.same_compound_left.1 hsame
    cases hargs
    exact .truth
  | cut =>
    obtain ⟨args, n, rfl, hargs⟩ := Term.same_compound_left.1 hsame
    cases hargs
    exact .cut
  | both ha hb iha ihb =>
    obtain ⟨args, n, rfl, hargs⟩ := Term.same_compound_left.1 hsame
    obtain _ | ⟨hfirst, _ | ⟨hsecond, _ | _⟩⟩ := hargs
    exact .both (iha hfirst) (ihb hsecond)
  | left ha iha =>
    obtain ⟨args, n, rfl, hargs⟩ := Term.same_compound_left.1 hsame
    obtain _ | ⟨hfirst, _ | ⟨hsecond, _ | _⟩⟩ := hargs
    exact .left (iha hfirst)
  | right hb ihb =>
    obtain ⟨args, n, rfl, hargs⟩ := Term.same_compound_left.1 hsame
    obtain _ | ⟨hfirst, _ | ⟨hsecond, _ | _⟩⟩ := hargs
    exact .right (ihb hsecond)
  | ifThen ha hb iha ihb =>
    obtain ⟨args, n, rfl, hargs⟩ := Term.same_compound_left.1 hsame
    obtain _ | ⟨hfirst, _ | ⟨hsecond, _ | _⟩⟩ := hargs
    exact .ifThen (iha hfirst) (ihb hsecond)
  | negation h =>
    obtain ⟨args, n, rfl, hargs⟩ := Term.same_compound_left.1 hsame
    obtain _ | ⟨hfirst, _ | _⟩ := hargs
    exact .negation h
  | call hgoal h ih =>
    obtain ⟨args, n, rfl, hargs⟩ := Term.same_compound_left.1 hsame
    obtain _ | ⟨htarget, hextra⟩ := hargs
    obtain ⟨goal', hgoal', hsame'⟩ := addArgs_same htarget hextra hgoal
    exact .call hgoal' (ih hsame')
  | unify h =>
    obtain ⟨args, n, rfl, hargs⟩ := Term.same_compound_left.1 hsame
    obtain _ | ⟨hfirst, _ | ⟨hsecond, _ | _⟩⟩ := hargs
    exact .unify (Term.same_trans (Term.same_trans (Term.same_symm hfirst) h) hsecond)
  | differ =>
    obtain ⟨args, n, rfl, hargs⟩ := Term.same_compound_left.1 hsame
    obtain _ | ⟨hfirst, _ | ⟨hsecond, _ | _⟩⟩ := hargs
    exact .differ
  | predicate huser hclause hhead hbody ih =>
    have hhead' := Term.same_trans (Term.same_symm hsame) hhead
    obtain ⟨args, n, rfl, hargs⟩ := Term.same_compound_left.1 hsame
    rw [hargs.length_eq] at huser
    exact .predicate huser hclause hhead' hbody

end Derivable

/-- The goal term that becomes of a call. -/
def Call.assign (θ : Assignment) (call : Call) : Term :=
  .apply call.functor (call.args.map fun arg => arg.term.assign θ)

/-- A call becomes what the occurrence it is read off becomes, as a goal. -/
theorem Call.derivable_of_ofOccurrence {program : Set Clause} {θ : Assignment} {call : Call}
    {o : Occurrence} (hcall : Call.ofOccurrence o = .ok call)
    (h : Derivable program (call.assign θ)) : Derivable program (o.term.assign θ) := by
  obtain ⟨text, node, term⟩ := o
  cases term with
  | atom name =>
    cases hcall
    exact .atom h
  | compound functor args n =>
    cases hcall
    rw [Term.assign_compound]
    rwa [Call.assign, Occurrence.map_assign_args] at h
  | number | var => cases hcall

/-- The arguments of a call are arguments of the term it is read off. -/
theorem Call.term_mem_args {call : Call} {o arg : Occurrence}
    (hcall : Call.ofOccurrence o = .ok call) (harg : arg ∈ call.args) :
    arg.term ∈ o.term.args := by
  rw [Call.ofOccurrence] at hcall
  cases hterm : o.term <;> simp only [hterm] at hcall <;> cases hcall
  · cases harg
  · rw [← hterm, ← Occurrence.map_term_args]
    exact List.mem_map_of_mem harg

namespace Goal

/-- The calls that ask for a goal. -/
inductive Asks : Call → Goal → Prop
  /-- Truth. -/
  | truth : Asks ⟨"true", []⟩ .truth
  /-- Failure under one of its names. -/
  | failure {functor : String} (h : functor = "fail" ∨ functor = "false") :
      Asks ⟨functor, []⟩ .failure
  /-- A cut. -/
  | cut : Asks ⟨"!", []⟩ .cut
  /-- A conjunction. -/
  | both {left right : Occurrence} : Asks ⟨",", [left, right]⟩ (.both left right)
  /-- A disjunction. -/
  | either {left right : Occurrence} : Asks ⟨";", [left, right]⟩ (.either left right)
  /-- A disjunction whose left goal is written as an if-then. -/
  | ifThenElse {left right condition consequent : Occurrence}
      (h : Call.ofOccurrence left = .ok ⟨"->", [condition, consequent]⟩) :
      Asks ⟨";", [left, right]⟩ (.ifThen condition consequent (some right))
  /-- An if-then without an alternative. -/
  | ifThen {condition consequent : Occurrence} :
      Asks ⟨"->", [condition, consequent]⟩ (.ifThen condition consequent none)
  /-- A negation under one of its names. -/
  | negation {functor : String} {goal : Occurrence} (h : functor = "\\+" ∨ functor = "not") :
      Asks ⟨functor, [goal]⟩ (.negation goal)
  /-- A call with further arguments. -/
  | call {target : Occurrence} {extra : List Occurrence} :
      Asks ⟨"call", target :: extra⟩ (.call target extra)
  /-- An equation. -/
  | unify {left right : Occurrence} : Asks ⟨"=", [left, right]⟩ (.unify left right)
  /-- An inequation. -/
  | differ {left right : Occurrence} : Asks ⟨"\\=", [left, right]⟩ (.differ left right)
  /-- Whatever is no control construct. -/
  | predicate {callee : Call} (h : isControl callee.functor callee.args.length = false) :
      Asks callee (.predicate callee)

variable {program : Set Clause} {θ : Assignment} {callee : Call} {goal : Goal}

/-- What a call is read as is what it asks for. -/
theorem asks_of_ofCall (h : ofCall callee = .ok goal) : Asks callee goal := by
  obtain ⟨functor, args⟩ := callee
  unfold ofCall at h
  dsimp only at h
  split at h
  · cases h
    exact .truth
  · cases h
    exact .failure (Or.inl rfl)
  · cases h
    exact .failure (Or.inr rfl)
  · cases h
    exact .cut
  · cases h
    exact .both
  · next left right =>
    cases hifThen : ifThen? left with
    | none =>
      simp only [hifThen] at h
      cases h
      exact .either
    | some parts =>
      simp only [hifThen] at h
      cases h
      unfold ifThen? at hifThen
      split at hifThen
      · next condition consequent hcall =>
        cases hifThen
        exact .ifThenElse hcall
      · cases hifThen
  · cases h
    exact .ifThen
  · cases h
    exact .negation (Or.inl rfl)
  · cases h
    exact .negation (Or.inr rfl)
  · cases h
    exact .call
  · cases h
    exact .unify
  · cases h
    exact .differ
  · next htrue hfail hfalse _ _ _ _ _ hnot _ hequal hdiffer =>
    split at h
    · cases h
    · next hreserved =>
      cases h
      refine .predicate ?_
      rw [← Bool.not_eq_true, isControl_iff]
      -- Each control construct was refused above, by its functor and its arguments.
      rintro (hname | ⟨hname, hargs⟩ | ⟨hname, hargs⟩ | ⟨hname, hargs⟩ | ⟨hname, goal, hargs⟩ |
        ⟨hname, left, right, hargs⟩ | ⟨hname, left, right, hargs⟩)
      · exact hreserved (List.contains_iff_mem.2 hname)
      · exact htrue hname hargs
      · exact hfail hname hargs
      · exact hfalse hname hargs
      · exact hnot goal hname hargs
      · exact hequal left right hname hargs
      · exact hdiffer left right hname hargs

/-- What a goal says when it is read as logic. -/
def Holds (program : Set Clause) (θ : Assignment) : Goal → Prop
  | .truth | .cut | .negation _ | .differ _ _ => True
  | .failure => False
  | .both left right =>
    Derivable program (left.term.assign θ) ∧ Derivable program (right.term.assign θ)
  | .either left right =>
    Derivable program (left.term.assign θ) ∨ Derivable program (right.term.assign θ)
  | .ifThen condition consequent alternative =>
    Derivable program (condition.term.assign θ) ∧ Derivable program (consequent.term.assign θ) ∨
      ∃ goal, alternative = some goal ∧ Derivable program (goal.term.assign θ)
  | .call target extra =>
    ∃ goal, (target.term.assign θ).addArgs (extra.map fun arg => arg.term.assign θ) = some goal ∧
      Derivable program goal
  | .unify left right => (left.term.assign θ).same (right.term.assign θ)
  | .predicate callee => Derivable program (callee.assign θ)

/-- A call is derivable when the goal it asks for holds. -/
theorem Asks.derivable (hasks : Asks callee goal) (h : goal.Holds program θ) :
    Derivable program (callee.assign θ) := by
  cases hasks with
  | truth => exact .truth
  | failure => exact h.elim
  | cut => exact .cut
  | both => exact .both h.1 h.2
  | either => exact h.elim .left .right
  | ifThenElse hleft =>
    rcases h with ⟨hcondition, hconsequent⟩ | ⟨goal, heq, halternative⟩
    · refine .left (Call.derivable_of_ofOccurrence hleft ?_)
      exact .ifThen hcondition hconsequent
    · cases heq
      exact .right halternative
  | ifThen =>
    rcases h with ⟨hcondition, hconsequent⟩ | ⟨_, hnone, _⟩
    · exact .ifThen hcondition hconsequent
    · cases hnone
  | negation hname => exact .negation hname
  | call =>
    obtain ⟨goal, hgoal, hderivable⟩ := h
    exact .call hgoal hderivable
  | unify => exact .unify h
  | differ => exact .differ
  | predicate => exact h

end Goal

end ClauseResolution
