import ClauseResolution.Proofs.Term.Names
import ClauseResolution.Proofs.Unification.Termination

/-!
# Unification does not look at names

Without names a store has the same bindings of the same slots under the same stamps. It
follows variables alike, and the occurs test finds the same variables. A unification
compares names only where it asks whether a pair of occurrences was entered before, and
there they make no difference as long as every slot has but one name. So a unification in
a store without names takes the same steps and ends in the same context.
-/

namespace ClauseResolution

/-- Both occurrences of a pair, without names. -/
def unnamedPair (p : Occurrence × Occurrence) : Occurrence × Occurrence :=
  (p.1.unnamed, p.2.unnamed)

/-- The step without names. -/
def PairStep.unnamed : PairStep → PairStep
  | .skip => .skip
  | .clash => .clash
  | .bind v value => .bind v.unnamed value.unnamed
  | .descend left right remember => .descend left.unnamed right.unnamed remember

/-- All variables of the pairs have the names that a list gives to their slots. -/
def NamedPairs (names : List String) (pairs : List (Occurrence × Occurrence)) : Prop :=
  ∀ p ∈ pairs, p.1.term.Named names ∧ p.2.term.Named names

/-- What a step binds or goes on with has the names that a list gives to the slots. -/
def PairStep.Named (names : List String) : PairStep → Prop
  | .skip | .clash => True
  | .bind _ value => value.term.Named names
  | .descend left right _ => (left.term.Named names ∧ right.term.Named names) ∧
    NamedPairs names (left.args.zip right.args)

namespace Substitution

variable {s : Substitution} {names : List String} {l r o : Occurrence} {layout : Layout}
  {occursCheck : Bool} {entered : List (Occurrence × Occurrence)}

/-- The substitution without names. -/
def unnamed (s : Substitution) : Substitution :=
  ⟨s.bindings.map fun (slot, value) => (slot, value.unnamed), s.top⟩

/-- The top does not depend on names. -/
@[simp] theorem top_unnamed (s : Substitution) : s.unnamed.top = s.top := rfl

/-- The value of a slot without names is its value without names. -/
theorem valueAt_unnamed (s : Substitution) (slot : Nat) :
    s.unnamed.valueAt slot = (s.valueAt slot).map Occurrence.unnamed := by
  obtain ⟨bindings, top⟩ := s
  rw [valueAt, valueAt, unnamed]
  dsimp only
  induction bindings with
  | nil => rfl
  | cons binding bindings ih =>
    obtain ⟨i, value⟩ := binding
    rw [List.map_cons, List.lookup_cons, List.lookup_cons]
    cases slot == i
    · exact ih
    · rfl

/-- Which binding is followed is a matter of slots. -/
theorem follow_unnamed (s : Substitution) (o : Occurrence) :
    s.unnamed.follow o = (s.follow o).map Occurrence.unnamed := by
  cases hslot : o.slot? with
  | none => rw [follow, follow, hslot, Option.bind_none, Option.bind_none, Option.map_none]
  | some slot =>
    rw [follow, follow, hslot, Option.bind_some, Option.bind_some, valueAt_unnamed]

/-- The slot of an occurrence does not depend on names. -/
@[simp] theorem slot?_unnamed (o : Occurrence) : o.unnamed.slot? = o.slot? := by
  obtain ⟨text, node, term⟩ := o
  cases term with
  | var v => exact Var.index_unnamed v
  | atom | number | compound => rfl

/-- Names can be hidden before or after variables are followed. -/
theorem followWithin_unnamed (s : Substitution) (hops : Nat) (o : Occurrence) :
    s.unnamed.followWithin hops o.unnamed = (s.followWithin hops o).unnamed := by
  induction hops generalizing o with
  | zero => rfl
  | succ hops ih =>
    have hfollow : s.unnamed.follow o.unnamed = (s.follow o).map Occurrence.unnamed := by
      rw [← follow_unnamed, follow, follow, slot?_unnamed]
    cases hvalue : s.follow o with
    | none =>
      rw [hvalue, Option.map_none] at hfollow
      rw [followWithin_of_settled hfollow, followWithin_of_settled hvalue]
    | some value =>
      rw [hvalue, Option.map_some] at hfollow
      rw [followWithin_of_follow hfollow, followWithin_of_follow hvalue, ih]

/-- Without names an occurrence is followed to the same place. -/
theorem deref_unnamed (s : Substitution) (o : Occurrence) :
    s.unnamed.deref o.unnamed = (s.deref o).unnamed := by
  have hlength : s.unnamed.bindings.length = s.bindings.length := List.length_map _
  rw [deref, deref, hlength, followWithin_unnamed]

/-- Following variables ends without names as well. -/
theorem Settles.unnamed (h : s.Settles) : s.unnamed.Settles := by
  intro o
  cases hvalue : s.follow o with
  | none => exact ⟨0, by rw [followWithin, Settled, follow_unnamed, hvalue, Option.map_none]⟩
  | some value =>
    obtain ⟨hops, hsettled⟩ := h value
    have hfollow : s.unnamed.follow o = some value.unnamed := by
      rw [follow_unnamed, hvalue, Option.map_some]
    refine ⟨hops + 1, ?_⟩
    rw [followWithin_of_follow hfollow, followWithin_unnamed, Settled, follow_unnamed]
    rw [Settled, follow] at hsettled
    rw [follow, slot?_unnamed, hsettled, Option.map_none]

/-- Which slots lead to which does not depend on names. -/
theorem leads_unnamed (s : Substitution) : s.unnamed.Leads = s.Leads := by
  funext i j
  simp [Leads, valueAt_unnamed]

/-- Which slots are reached does not depend on names. -/
theorem reaches_unnamed (s : Substitution) (t : Term) (slot : Nat) :
    s.unnamed.Reaches t.unnamed slot ↔ s.Reaches t slot := by
  rw [Reaches, Reaches, leads_unnamed, Term.slots_unnamed]

/-- The occurs test of a substitution by itself. -/
theorem occurs_iff (s : Substitution) (v : Var) (t : Term) :
    s.occurs v t = true ↔
      ∃ slot, v.index = some slot ∧ s.valueAt slot = none ∧ s.Reaches t slot := by
  rw [occurs, Store.occurs_iff, substitution_store]

/-- The occurs test does not look at names. -/
theorem occurs_unnamed (s : Substitution) (v : Var) (t : Term) :
    s.unnamed.occurs v.unnamed t.unnamed = s.occurs v t := by
  rw [Bool.eq_iff_iff, occurs_iff, occurs_iff]
  simp only [Var.index_unnamed, valueAt_unnamed, Option.map_eq_none_iff, reaches_unnamed]

/-- A list of names has the names of all slots, and of all variables in the bindings. -/
structure Names (s : Substitution) (names : List String) : Prop where
  /-- There is one name for each slot. -/
  length : names.length = s.top
  /-- The values have these names. -/
  value : ∀ slot value, (slot, value) ∈ s.bindings → value.term.Named names

namespace Names

/-- What is followed from an occurrence has the names of its slots. -/
theorem deref (h : s.Names names) (ho : o.term.Named names) : (s.deref o).term.Named names :=
  deref_keeps (motive := fun o => o.term.Named names) (fun _ => h.value _ _) ho

/-- A binding to a term with these names. -/
theorem bind (h : s.Names names) (v : Var) {value : Occurrence} (hvalue : value.term.Named names) :
    (s.bind v value).Names names := by
  rw [Substitution.bind]
  cases v.index with
  | none => exact h
  | some slot =>
    refine ⟨h.length, fun i other hmem => ?_⟩
    rcases List.mem_cons.1 hmem with heq | hmem
    · cases heq
      exact hvalue
    · exact h.value i other hmem

end Names

/-- Whether a compound term stands somewhere is seen without names. -/
@[simp] theorem isCompound_unnamed (o : Occurrence) : o.unnamed.isCompound = o.isCompound := by
  obtain ⟨text, node, term⟩ := o
  cases term with
  | compound functor args varCount =>
    rw [Occurrence.isCompound, Occurrence.term_unnamed, Term.unnamed_compound]
    rfl
  | atom | number | var => rfl

/-- Where every occurrence is stored by itself, no name is needed to tell one from another. -/
theorem shares_unnamed {left right : Occurrence} (hleft : left.term.Named names)
    (hright : right.term.Named names) :
    Layout.byOccurrence.shares left.unnamed right.unnamed =
      Layout.byOccurrence.shares left right := by
  have hiff : left.unnamed = right.unnamed ↔ left = right :=
    ⟨Occurrence.eq_of_unnamed_eq hleft hright, congrArg Occurrence.unnamed⟩
  rw [Layout.shares, Layout.shares, isCompound_unnamed, isCompound_unnamed]
  congr 1
  rw [Bool.eq_iff_iff, beq_iff_eq, beq_iff_eq]
  exact hiff

/-- A pair is dropped at a glance without names when it is dropped. -/
theorem drops_unnamed {left right : Occurrence} (hleft : left.term.Named names)
    (hright : right.term.Named names) :
    Layout.byOccurrence.drops left.unnamed right.unnamed =
      Layout.byOccurrence.drops left right := by
  rw [Layout.drops, Layout.drops, shares_unnamed hleft hright]

/-- Whether a pair was entered before is seen without names. -/
theorem met_unnamed {left right : Occurrence} (hleft : left.term.Named names)
    (hright : right.term.Named names) (hentered : NamedPairs names entered) :
    Layout.byOccurrence.met (entered.map unnamedPair) left.unnamed right.unnamed =
      Layout.byOccurrence.met entered left right := by
  have hshares : ∀ p ∈ entered,
      (Layout.byOccurrence.shares p.1.unnamed left.unnamed &&
        Layout.byOccurrence.shares p.2.unnamed right.unnamed) =
      (Layout.byOccurrence.shares p.1 left && Layout.byOccurrence.shares p.2 right) :=
    fun p hp => by
      rw [shares_unnamed (hentered p hp).1 hleft, shares_unnamed (hentered p hp).2 hright]
  rw [Layout.met, Layout.met, List.any_map, Bool.eq_iff_iff, List.any_eq_true, List.any_eq_true]
  exact exists_congr fun p => and_congr_right fun hp => by
    rw [← hshares p hp]
    rfl

/-- A pair calls for the same step without names. -/
theorem pairStep_unnamed (h : s.Names names) (hl : l.term.Named names) (hr : r.term.Named names)
    (hentered : NamedPairs names entered) :
    s.unnamed.pairStep .byOccurrence occursCheck (entered.map unnamedPair) l.unnamed r.unnamed =
      (s.pairStep .byOccurrence occursCheck entered l r).unnamed := by
  have hmet := met_unnamed (h.deref hl) (h.deref hr) hentered
  have hdrops := drops_unnamed (h.deref hl) (h.deref hr)
  have hreference : Layout.byOccurrence.sameReference l.unnamed r.unnamed =
      Layout.byOccurrence.sameReference l r := by
    rw [Layout.sameReference, Layout.sameReference, drops_unnamed hl hr, Occurrence.term_unnamed,
      Occurrence.term_unnamed, Term.sameConstant_unnamed]
  rw [pairStep, pairStep]
  simp only [deref_unnamed, Occurrence.term_unnamed, hreference, Occurrence.isVar_unnamed, hmet,
    hdrops]
  by_cases hsame : Layout.byOccurrence.sameReference l r = true
  · rw [if_pos hsame, if_pos hsame]
    rfl
  · rw [if_neg hsame, if_neg hsame]
    have hatom : ∀ v name, s.unnamed.occurs v.unnamed (.atom name) = s.occurs v (.atom name) :=
      fun v name => s.occurs_unnamed v (.atom name)
    have hnumber : ∀ v value,
        s.unnamed.occurs v.unnamed (.number value) = s.occurs v (.number value) :=
      fun v value => s.occurs_unnamed v (.number value)
    have hcompound : ∀ v f as m, s.unnamed.occurs v.unnamed (.compound f (as.map Term.unnamed) m) =
        s.occurs v (.compound f as m) := fun v f as m => by
      rw [← Term.unnamed_compound, occurs_unnamed]
    cases (s.deref l).term <;> cases (s.deref r).term <;>
      simp only [Term.unnamed_atom, Term.unnamed_number, Term.unnamed_var, Term.unnamed_compound,
        Var.isAnonymous_unnamed, Var.same_unnamed, List.length_map, hatom, hnumber, hcompound,
        apply_ite PairStep.unnamed] <;>
      rfl

/-- What a pair calls for has the names of the slots, as the pair has. -/
theorem Treats.named (h : s.Names names) (hl : l.term.Named names) (hr : r.term.Named names)
    {step : PairStep} (htreats : s.Treats layout occursCheck entered l r step) :
    step.Named names := by
  cases htreats with
  | constant | shared | anonymous | leaf | met | cyclic | differ => trivial
  | link => exact h.deref hr
  | assign hside =>
    rcases hside with ⟨_, rfl⟩ | ⟨_, rfl⟩
    · exact h.deref hr
    · exact h.deref hl
  | descend =>
    have hargs := Occurrence.forall_zip_args (motive := fun t => t.Named names)
      Term.Named.of_mem_args (h.deref hl) (h.deref hr)
    exact ⟨⟨h.deref hl, h.deref hr⟩, hargs⟩

/-- A unification does not change the names of slots. -/
theorem Names.unifyPairs {steps : Nat} {s' : Substitution}
    {pending : List (Occurrence × Occurrence)} (h : s.Names names)
    (hpending : NamedPairs names pending)
    (hunified : s.unifyPairs layout occursCheck steps entered pending = .unified s') :
    s'.Names names := by
  induction steps generalizing s entered pending with
  | zero =>
    cases pending with
    | nil =>
      cases hunified
      exact h
    | cons pair pending => cases hunified
  | succ steps ih =>
    cases pending with
    | nil =>
      cases hunified
      exact h
    | cons pair pending =>
      obtain ⟨l, r⟩ := pair
      obtain ⟨⟨hl, hr⟩, hrest⟩ := List.forall_mem_cons.1 hpending
      have hnamed := (s.treats_pairStep layout occursCheck entered l r).named h hl hr
      rw [Substitution.unifyPairs] at hunified
      cases hstep : s.pairStep layout occursCheck entered l r with
      | skip =>
        rw [hstep] at hunified
        exact ih h hrest hunified
      | clash => simp [hstep] at hunified
      | bind v value =>
        rw [hstep] at hunified hnamed
        exact ih (h.bind v hnamed) hrest hunified
      | descend left right remember =>
        rw [hstep] at hunified hnamed
        exact ih h (List.forall_mem_append.2 ⟨hnamed.2, hrest⟩) hunified

end Substitution

/-- The binding without names. -/
def Binding.unnamed (b : Binding) : Binding := ⟨b.slot, b.value.unnamed, b.parent⟩

/-- The store without names. -/
def Store.unnamed (σ : Store) : Store := ⟨σ.entries.map Binding.unnamed⟩

/-- The end of a unification, without names. -/
def Unified.unnamed : Unified → Unified
  | .unified σ c => .unified σ.unnamed c
  | .clash σ => .clash σ.unnamed
  | .unfinished => .unfinished

namespace Store

variable {σ : Store} {c : Context} {names : List String} {occursCheck : Bool}

/-- A store has as many entries without names. -/
@[simp] theorem size_unnamed (σ : Store) : σ.unnamed.size = σ.size := by
  simp [size, unnamed]

/-- The bindings along a chain without names are those without names. -/
theorem chain_unnamed (σ : Store) (stamp : Nat) : σ.unnamed.chain stamp =
    (σ.chain stamp).map fun (slot, value) => (slot, value.unnamed) := by
  have hsize : σ.unnamed.entries.size = σ.entries.size := σ.size_unnamed
  fun_induction chain σ stamp with
  | case1 => rw [chain, List.map_nil]
  | case2 stamp hlt binding ih =>
    have hentry : σ.unnamed.entries[stamp]? = some binding.unnamed := by
      simp [unnamed, binding, Array.getElem?_eq_getElem hlt]
    obtain ⟨hlt', heq⟩ := Array.getElem?_eq_some_iff.1 hentry
    rw [chain, dif_pos hlt', heq, List.map_cons, ← ih]
    rfl
  | case3 stamp hge => rw [chain, dif_neg (by omega), List.map_nil]

/-- A context has the same meaning in the store without names, apart from the names. -/
theorem substitution_unnamed (σ : Store) (c : Context) :
    σ.unnamed.substitution c = (σ.substitution c).unnamed := by
  rw [substitution, substitution, chain_unnamed]
  rfl

/-- Without names a slot is bound to the same term. -/
theorem lookup_unnamed (σ : Store) (c : Context) (slot : Nat) :
    σ.unnamed.lookup c slot = (σ.lookup c slot).map Term.unnamed := by
  rw [lookup, lookup, ← valueAt_substitution, ← valueAt_substitution, substitution_unnamed,
    Substitution.valueAt_unnamed, Option.map_map, Option.map_map]
  rfl

/-- Without names a variable is followed to the same place. -/
theorem deref_unnamed (σ : Store) (c : Context) (o : Occurrence) :
    σ.unnamed.deref c o.unnamed = (σ.deref c o).unnamed := by
  rw [deref, deref, derefWithin_eq_followWithin, derefWithin_eq_followWithin, substitution_unnamed,
    Substitution.followWithin_unnamed]

/-- Names can be hidden before or after a store is truncated. -/
theorem truncate_unnamed (σ : Store) (mark : Nat) :
    σ.unnamed.truncate mark = (σ.truncate mark).unnamed := by
  simp [truncate, unnamed]

/-- Binding a variable does not look at names. -/
theorem bind_unnamed (σ : Store) (c : Context) (v : Var) (value : Occurrence) :
    σ.unnamed.bind c v.unnamed value.unnamed =
      ((σ.bind c v value).1.unnamed, (σ.bind c v value).2) := by
  obtain ⟨text, node, term⟩ := value
  rw [bind, bind, Var.index_unnamed, Var.isAnonymous_unnamed]
  cases v.index with
  | none => rfl
  | some slot =>
    cases v.isAnonymous with
    | true => rfl
    | false =>
      cases term with
      | var w =>
        by_cases hself : w.index = some slot <;>
          simp [Occurrence.unnamed, hself, push, unnamed, Binding.unnamed]
      | atom | number | compound =>
        simp [Occurrence.unnamed, push, unnamed, Binding.unnamed]

/-- A unification in the store without names takes the same steps, and ends with the same
context in the store without names. -/
theorem unifyPairs_unnamed {steps : Nat} {entered pending : List (Occurrence × Occurrence)}
    (hc : σ.Holds c) (hsettles : (σ.substitution c).Settles)
    (h : (σ.substitution c).Names names) (hentered : NamedPairs names entered)
    (hpending : NamedPairs names pending) :
    unifyPairs .byOccurrence occursCheck steps σ.unnamed c (entered.map unnamedPair)
        (pending.map unnamedPair) =
      (unifyPairs .byOccurrence occursCheck steps σ c entered pending).unnamed := by
  induction steps generalizing σ c entered pending with
  | zero =>
    cases pending with
    | nil => rfl
    | cons pair pending => rfl
  | succ steps ih =>
    cases pending with
    | nil => rfl
    | cons pair pending =>
      obtain ⟨l, r⟩ := pair
      obtain ⟨⟨hl, hr⟩, hrest⟩ := List.forall_mem_cons.1 hpending
      have hsettles' : (σ.unnamed.substitution c).Settles := by
        rw [substitution_unnamed]
        exact hsettles.unnamed
      have htreats := (σ.substitution c).treats_pairStep .byOccurrence occursCheck entered l r
      have hnamed := htreats.named h hl hr
      rw [List.map_cons, unnamedPair, unifyPairs_cons (deref_eq hsettles'),
        unifyPairs_cons (deref_eq hsettles), substitution_unnamed,
        Substitution.pairStep_unnamed h hl hr hentered]
      cases hstep : (σ.substitution c).pairStep .byOccurrence occursCheck entered l r with
      | skip => exact ih hc hsettles h hentered hrest
      | clash => rfl
      | bind v value =>
        rw [hstep] at htreats hnamed
        obtain ⟨_, hd, hsubst⟩ := bind_of_treats hc htreats
        simp only [PairStep.unnamed, bind_unnamed]
        refine ih hd ?_ ?_ hentered hrest
        · rw [hsubst]
          exact htreats.settles_bind hsettles
        · rw [hsubst]
          exact h.bind v hnamed
      | descend left right remember =>
        rw [hstep] at hnamed
        obtain ⟨hboth, hargs⟩ := hnamed
        have hmap : (left.args.map Occurrence.unnamed).zip (right.args.map Occurrence.unnamed) =
            (left.args.zip right.args).map unnamedPair := List.zip_map ..
        have hentered' :
            NamedPairs names (if remember then (left, right) :: entered else entered) := by
          split
          · exact List.forall_mem_cons.2 ⟨hboth, hentered⟩
          · exact hentered
        have hsame := ih hc hsettles h hentered' (List.forall_mem_append.2 ⟨hargs, hrest⟩)
        rw [List.map_append, apply_ite (List.map unnamedPair), List.map_cons] at hsame
        simp only [PairStep.unnamed, Occurrence.args_unnamed, hmap]
        exact hsame

end Store

end ClauseResolution
