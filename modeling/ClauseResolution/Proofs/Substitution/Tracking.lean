import ClauseResolution.Proofs.Substitution.Roots
import ClauseResolution.Proofs.Term.Reading
import ClauseResolution.Proofs.Unification.Steps

/-!
# Substitutions that are read as each other

Two substitutions are compared slot by slot, the slots of the second being read as slots of the
first or as the anonymous variable. The first tracks the second when slots that are read as
each other end alike: at terms that are read as each other, or both at free slots, different
ones in the one where they are different in the other. Which free slot it is does not matter,
so a slot of the second may end at a gap. A gap that is free and at which no slot that is read
ends is loose. The relation stays when both substitutions bind slots that stand for each other,
and when the second one only binds a loose gap, or binds a slot to a loose gap.
-/

namespace ClauseResolution

namespace Occurrence

variable {r : Reading} {o o' : Occurrence} {i j : Nat}

/-- The slot of what is read as a variable. -/
theorem slot?_readBy_of_at (hslot : o.slot? = some j) (hat : r.At j i) :
    (o.readBy r).slot? = some i := by
  obtain ⟨v, hv, hindex⟩ := exists_var_of_slot? hslot
  rw [slot?, term_readBy, hv, Term.readBy_var, Var.readBy_of_at hindex hat]
  rfl

/-- What is no variable is read as something without a slot. -/
theorem slot?_readBy_of_isVar_eq_false (h : o.isVar = false) : (o.readBy r).slot? = none := by
  obtain ⟨text, node, term⟩ := o
  cases term with
  | var v => cases h
  | atom | number | compound => rfl

/-- Two walks end alike: at terms that are read as each other, or both at free slots. -/
inductive Alike (r : Reading) : Occurrence → Occurrence → Prop
  /-- At terms that are no variables. -/
  | node {o' : Occurrence} (hnode : o'.isVar = false) : Alike r (o'.readBy r) o'
  /-- At slots. -/
  | free {o o' : Occurrence} {k k' : Nat} (hslot : o.slot? = some k) (hslot' : o'.slot? = some k') :
      Alike r o o'

/-- A longer reading makes no difference. -/
theorem Alike.append (h : Alike r o o') (hfits : o'.term.Fits r) (more : Reading) :
    Alike (r ++ more) o o' := by
  cases h with
  | node hnode =>
    have hread : o'.readBy (r ++ more) = o'.readBy r :=
      congrArg (mk o'.text o'.node) (hfits.readBy_append more)
    rw [← hread]
    exact .node hnode
  | free hslot hslot' => exact .free hslot hslot'

/-- Where the second walk ends at a slot, the first one does. -/
theorem Alike.exists_slot? {k' : Nat} (h : Alike r o o') (hslot : o'.slot? = some k') :
    ∃ k, o.slot? = some k := by
  cases h with
  | node hnode =>
    rw [slot?_of_isVar_eq_false hnode] at hslot
    cases hslot
  | free hfirst => exact ⟨_, hfirst⟩

end Occurrence

namespace Substitution

variable {r : Reading} {s s' : Substitution} {o value value' : Occurrence} {g i j k k' m m' : Nat}

/-- A free slot of the second substitution stands for one of the first: two slots end there
that are read as each other. -/
def Stands (r : Reading) (s s' : Substitution) (k' k : Nat) : Prop :=
  ∃ j i, r.At j i ∧ (s'.root j).slot? = some k' ∧ (s.root i).slot? = some k

/-- Slots end alike in two substitutions. -/
structure Tracks (r : Reading) (s s' : Substitution) : Prop where
  /-- Following variables ends in the first. -/
  settles : s.Settles
  /-- It ends in the second. -/
  settles' : s'.Settles
  /-- All slots of the first are read. -/
  covers : r.Covers s.top
  /-- All slots of the second are read or gaps. -/
  length : r.length = s'.top
  /-- In the first no value has a blank. -/
  plain : ∀ binding ∈ s.bindings, binding.2.term.isAnonymousFree
  /-- In the second the values can be read. -/
  fits : ∀ binding ∈ s'.bindings, binding.2.term.Fits r
  /-- Slots that are read as each other end alike. -/
  ends : ∀ {j i}, r.At j i → Occurrence.Alike r (s.root i) (s'.root j)
  /-- A free slot stands for one slot only. -/
  functional : ∀ {k' k m}, Stands r s s' k' k → Stands r s s' k' m → k = m
  /-- One slot only stands for a free slot. -/
  injective : ∀ {k' m' k}, Stands r s s' k' k → Stands r s s' m' k → k' = m'

/-- A gap that is free, and at which no slot ends that is read. -/
structure Loose (r : Reading) (s : Substitution) (g : Nat) : Prop where
  /-- It is a gap. -/
  gap : r.IsGap g
  /-- It is free. -/
  free : s.valueAt g = none
  /-- Slots that are read end elsewhere. -/
  apart : ∀ {j i}, r.At j i → (s.root j).slot? ≠ some g

/-- What stands for a slot is no loose gap. -/
theorem Stands.ne_of_loose (h : Stands r s s' k' k) (hg : Loose r s' g) : k' ≠ g := by
  rintro rfl
  obtain ⟨j, i, hat, hroot, _⟩ := h
  exact hg.apart hat hroot

section Start

variable {count count' : Nat}

/-- Before anything is bound, one slot stands for another when it is read as it. -/
theorem at_of_stands_nil (h : Stands r ⟨[], count⟩ ⟨[], count'⟩ k' k) : r.At k' k := by
  obtain ⟨j, i, hat, hroot', hroot⟩ := h
  rw [root_of_free rfl] at hroot hroot'
  cases hroot
  cases hroot'
  exact hat

/-- Before anything is bound, all slots end alike. -/
theorem Tracks.start (hcovers : r.Covers count) (hlength : r.length = count') :
    Tracks r ⟨[], count⟩ ⟨[], count'⟩ where
  settles := settles_of_bindings_eq_nil rfl
  settles' := settles_of_bindings_eq_nil rfl
  covers := hcovers
  length := hlength
  plain := List.forall_mem_nil _
  fits := List.forall_mem_nil _
  ends _ := by
    rw [root_of_free rfl, root_of_free rfl]
    exact .free (Occurrence.slot?_ofSlot _) (Occurrence.slot?_ofSlot _)
  functional hk hm := (at_of_stands_nil hk).functional (at_of_stands_nil hm)
  injective hk hm := hcovers.injective (at_of_stands_nil hk) (at_of_stands_nil hm)

/-- Before anything is bound, every gap is loose. -/
theorem Loose.start (hg : r.IsGap g) : Loose r ⟨[], count'⟩ g where
  gap := hg
  free := rfl
  apart hat hroot := by
    rw [root_of_free rfl] at hroot
    cases hroot
    exact hat.not_isGap hg

end Start

/-- A slot that is bound to another one than itself remains loose or not as it was, unless it is
the one that is bound. -/
theorem Loose.extend (h : s.Settles) (hg : Loose r s g) (hfree : s.valueAt k = none)
    (hvalue : s.Settled value) (hself : value.slot? ≠ some k) (hne : g ≠ k)
    (hother : value.slot? ≠ some g) : Loose r (s.extend k value) g := by
  refine ⟨hg.gap, ?_, fun hat => ?_⟩
  · rw [valueAt_extend, if_neg hne]
    exact hg.free
  · rw [h.root_extend hfree hvalue hself]
    split
    · exact hother
    · exact hg.apart hat

/-- An occurrence and the one for which it stands end at terms that are no variables. -/
structure Met (r : Reading) (s s' : Substitution) (o : Occurrence) : Prop where
  /-- No variable stands there. -/
  node : (s'.deref o).isVar = false
  /-- The terms are read as each other. -/
  read : s.deref (o.readBy r) = (s'.deref o).readBy r
  /-- The term can be read. -/
  fits : (s'.deref o).term.Fits r
  /-- No gap is lost on the way. -/
  gaps : (s'.deref o).gaps r = o.gaps r
  /-- The term stands here, or it has no gaps. -/
  self : s'.deref o = o ∨ (s'.deref o).gaps r = []

/-- No variable stands where the one ends for which the occurrence stands. -/
theorem Met.node' (h : Met r s s' o) : (s.deref (o.readBy r)).isVar = false := by
  rw [h.read, Occurrence.isVar_readBy, h.node]

/-- The one for which the occurrence stands ends at itself, or at a term without blanks. -/
theorem Met.self_readBy (h : Met r s s' o) :
    (s'.deref o).readBy r = o.readBy r ∨ ((s'.deref o).readBy r).term.isAnonymousFree := by
  rcases h.self with heq | hgaps
  · exact Or.inl (by rw [heq])
  · exact Or.inr (h.fits.isAnonymousFree_readBy.2 hgaps)

/-- Where an occurrence ends, and the one for which it stands. -/
inductive Faces (r : Reading) (s s' : Substitution) (o : Occurrence) : Prop
  /-- A gap ends at itself, and so does the anonymous variable. -/
  | gap {v w : Var} {g : Nat} (hself : s'.deref o = o) (hv : o.term = .var v)
      (hnamed : v.isAnonymous = false) (hindex : v.index = some g) (hgap : g ∈ o.gaps r)
      (hw : (s.deref (o.readBy r)).term = .var w) (hanonymous : w.isAnonymous = true)
  /-- Both end at terms that are no variables. -/
  | node (hmet : Met r s s' o)
  /-- Both end at free slots that stand for each other. -/
  | free {v w : Var} {k' k : Nat} (hv : (s'.deref o).term = .var v)
      (hw : (s.deref (o.readBy r)).term = .var w) (hnamed : v.isAnonymous = false)
      (hnamed' : w.isAnonymous = false) (hindex : v.index = some k') (hindex' : w.index = some k)
      (hstands : Stands r s s' k' k)

namespace Tracks

/-- What stands for a free slot is free. -/
theorem valueAt_of_stands (h : Tracks r s s') (hk : Stands r s s' k' k) :
    s.valueAt k = none ∧ s'.valueAt k' = none := by
  obtain ⟨j, i, _, hroot', hroot⟩ := hk
  exact ⟨h.settles.valueAt_of_root hroot, h.settles'.valueAt_of_root hroot'⟩

/-- Slots that are read as each other both end at terms, or both do not. -/
theorem isVar_root (h : Tracks r s s') (hat : r.At j i) :
    (s.root i).isVar = (s'.root j).isVar := by
  have halike := h.ends hat
  revert halike
  generalize s.root i = e
  generalize s'.root j = e'
  intro halike
  cases halike with
  | node => exact Occurrence.isVar_readBy _
  | free hslot hslot' => rw [Occurrence.isVar_of_slot? hslot, Occurrence.isVar_of_slot? hslot']

/-- Slots that are read as each other end at slots that stand for each other. -/
theorem slot?_root_iff (h : Tracks r s s') (hat : r.At j i) (hk : Stands r s s' k' k) :
    (s.root i).slot? = some k ↔ (s'.root j).slot? = some k' := by
  generalize hroot : s.root i = o
  generalize hroot' : s'.root j = o'
  have hends := h.ends hat
  rw [hroot, hroot'] at hends
  cases hends with
  | node hnode =>
    simp [Occurrence.slot?_readBy_of_isVar_eq_false hnode,
      Occurrence.slot?_of_isVar_eq_false hnode]
  | @free _ _ m m' hslot hslot' =>
    have hm : Stands r s s' m' m := ⟨j, i, hat, by rw [hroot', hslot'], by rw [hroot, hslot]⟩
    rw [hslot, hslot', Option.some.injEq, Option.some.injEq]
    constructor
    · rintro rfl
      exact h.injective hm hk
    · rintro rfl
      exact h.functional hm hk

/-- Both substitutions bind slots that stand for each other, to values that are alike. -/
theorem extend (h : Tracks r s s') (hk : Stands r s s' k' k) (hvalue : s.Settled value)
    (hvalue' : s'.Settled value') (hself : value.slot? ≠ some k) (hself' : value'.slot? ≠ some k')
    (hplain : value.term.isAnonymousFree) (hfits : value'.term.Fits r)
    (halike : Occurrence.Alike r value value')
    (hstands : ∀ {m m'}, value.slot? = some m → value'.slot? = some m' → Stands r s s' m' m) :
    Tracks r (s.extend k value) (s'.extend k' value') := by
  obtain ⟨hfree, hfree'⟩ := h.valueAt_of_stands hk
  have hroot : ∀ {j i}, r.At j i → (s.extend k value).root i =
      if (s'.root j).slot? = some k' then value else s.root i := fun hat => by
    simp only [h.settles.root_extend hfree hvalue hself, h.slot?_root_iff hat hk]
  have hroot' := h.settles'.root_extend hfree' hvalue' hself'
  have hold : ∀ {m' m}, Stands r (s.extend k value) (s'.extend k' value') m' m →
      Stands r s s' m' m := by
    rintro m' m ⟨j, i, hat, hend', hend⟩
    rw [hroot'] at hend'
    rw [hroot hat] at hend
    split at hend'
    · next hbound =>
      rw [if_pos hbound] at hend
      exact hstands hend hend'
    · next hother =>
      rw [if_neg hother] at hend
      exact ⟨j, i, hat, hend', hend⟩
  refine ⟨h.settles.extend hvalue hself, h.settles'.extend hvalue' hself', h.covers, h.length,
    List.forall_mem_cons.2 ⟨hplain, h.plain⟩, List.forall_mem_cons.2 ⟨hfits, h.fits⟩, ?_,
    fun hm hm' => h.functional (hold hm) (hold hm'), fun hm hm' => h.injective (hold hm) (hold hm')⟩
  intro j i hat
  rw [hroot hat, hroot']
  split
  · exact halike
  · exact h.ends hat

/-- The second substitution binds a loose gap. -/
theorem fill (h : Tracks r s s') (hg : Loose r s' g) (hvalue' : s'.Settled value')
    (hself' : value'.slot? ≠ some g) (hfits : value'.term.Fits r) :
    Tracks r s (s'.extend g value') := by
  have hroot' : ∀ {j i}, r.At j i → (s'.extend g value').root j = s'.root j := fun hat => by
    rw [h.settles'.root_extend hg.free hvalue' hself', if_neg (hg.apart hat)]
  have hold : ∀ {m' m}, Stands r s (s'.extend g value') m' m → Stands r s s' m' m := by
    rintro m' m ⟨j, i, hat, hend', hend⟩
    rw [hroot' hat] at hend'
    exact ⟨j, i, hat, hend', hend⟩
  refine ⟨h.settles, h.settles'.extend hvalue' hself', h.covers, h.length, h.plain,
    List.forall_mem_cons.2 ⟨hfits, h.fits⟩, ?_, fun hm hm' => h.functional (hold hm) (hold hm'),
    fun hm hm' => h.injective (hold hm) (hold hm')⟩
  intro j i hat
  rw [hroot' hat]
  exact h.ends hat

/-- The second substitution binds a slot to a loose gap, which stands for what the slot stood for
from then on. -/
theorem lend (h : Tracks r s s') (hk : Stands r s s' k' k) (hg : Loose r s' g)
    (hslot : value'.slot? = some g) (hfits : value'.term.Fits r) :
    Tracks r s (s'.extend k' value') := by
  have hne : g ≠ k' := (hk.ne_of_loose hg).symm
  have hself' : value'.slot? ≠ some k' := by rw [hslot]; simpa using hne
  have hvalue' : s'.Settled value' := by rw [Settled, follow, hslot, Option.bind_some, hg.free]
  have hroot' := h.settles'.root_extend (h.valueAt_of_stands hk).2 hvalue' hself'
  have hold : ∀ {m' m}, Stands r s (s'.extend k' value') m' m →
      m' = g ∧ Stands r s s' k' m ∨ m' ≠ g ∧ m' ≠ k' ∧ Stands r s s' m' m := by
    rintro m' m ⟨j, i, hat, hend', hend⟩
    rw [hroot'] at hend'
    split at hend'
    · next hbound =>
      rw [hslot, Option.some.injEq] at hend'
      exact Or.inl ⟨hend'.symm, j, i, hat, hbound, hend⟩
    · next hother =>
      have hm : Stands r s s' m' m := ⟨j, i, hat, hend', hend⟩
      exact Or.inr ⟨hm.ne_of_loose hg, fun heq => hother (heq ▸ hend'), hm⟩
  refine ⟨h.settles, h.settles'.extend hvalue' hself', h.covers, h.length, h.plain,
    List.forall_mem_cons.2 ⟨hfits, h.fits⟩, ?_, fun hm hm' => ?_, fun hm hm' => ?_⟩
  · intro j i hat
    rw [hroot']
    split
    · next hbound => exact .free ((h.slot?_root_iff hat hk).2 hbound) hslot
    · exact h.ends hat
  · obtain ⟨heq, hm⟩ | ⟨hother, _, hm⟩ := hold hm <;>
      obtain ⟨heq', hm'⟩ | ⟨hother', _, hm'⟩ := hold hm'
    · exact h.functional hm hm'
    · exact absurd heq hother'
    · exact absurd heq' hother
    · exact h.functional hm hm'
  · obtain ⟨heq, hm⟩ | ⟨_, hother, hm⟩ := hold hm <;>
      obtain ⟨heq', hm'⟩ | ⟨_, hother', hm'⟩ := hold hm'
    · exact heq.trans heq'.symm
    · exact absurd (h.injective hm' hm) hother'
    · exact absurd (h.injective hm hm') hother
    · exact h.injective hm hm'

/-- What an occurrence is followed to can be read. -/
theorem fits_deref (h : Tracks r s s') (ho : o.term.Fits r) : (s'.deref o).term.Fits r :=
  deref_keeps (motive := fun o => o.term.Fits r) h.fits ho

/-- What a variable of a slot is followed to has no blank. -/
theorem isAnonymousFree_deref (h : Tracks r s s') (ho : o.term.isAnonymousFree) :
    (s.deref o).term.isAnonymousFree :=
  deref_keeps (motive := fun o => o.term.isAnonymousFree) h.plain ho

/-- An occurrence and the one for which it stands end alike, or at a gap. -/
theorem faces (h : Tracks r s s') (ho : o.term.Fits r) (hloose : ∀ g ∈ o.gaps r, Loose r s' g) :
    Faces r s s' o := by
  have hfits := h.fits_deref ho
  cases hvar : o.isVar with
  | false =>
    have hself : s'.deref o = o := deref_of_settled (by
      rw [Settled, follow, Occurrence.slot?_of_isVar_eq_false hvar, Option.bind_none])
    have hread : s.deref (o.readBy r) = o.readBy r := deref_of_settled (by
      rw [Settled, follow, Occurrence.slot?_readBy_of_isVar_eq_false hvar, Option.bind_none])
    exact .node ⟨by rwa [hself], by rw [hself, hread], hfits, by rw [hself], Or.inl hself⟩
  | true =>
    obtain ⟨v, hv⟩ : ∃ v, o.term = .var v := by
      obtain ⟨text, node, term⟩ := o
      cases term with
      | var v => exact ⟨v, rfl⟩
      | atom | number | compound => cases hvar
    rw [hv] at ho
    obtain ⟨hnamed, ⟨g, hindex, hgap, hread⟩ | ⟨j, i, hindex, hat, hread⟩⟩ := ho.var_cases
    · have hmem : g ∈ o.gaps r := by
        rw [Occurrence.gaps, hv]
        exact Term.mem_gaps.2 ⟨Term.mem_slots_var.2 hindex, hgap⟩
      have hterm : (o.readBy r).term = .var .anonymous := by
        rw [Occurrence.term_readBy, hv, Term.readBy_var, hread]
      refine .gap (deref_of_settled ?_) hv hnamed hindex hmem ?_ (w := .anonymous) rfl
      · rw [Settled, follow, Occurrence.slot?, hv, Term.slot?, hindex, Option.bind_some,
          (hloose g hmem).free]
      · rw [deref_of_settled (by rw [Settled, follow, Occurrence.slot?, hterm]; rfl), hterm]
    · have hslot : o.slot? = some j := by rw [Occurrence.slot?, hv, Term.slot?, hindex]
      have hslot' := Occurrence.slot?_readBy_of_at hslot hat
      have hplain : (s.deref (o.readBy r)).term.isAnonymousFree := by
        refine h.isAnonymousFree_deref ?_
        rw [Occurrence.term_readBy, hv, Term.readBy_var, hread, Term.isAnonymousFree_var]
        exact hnamed
      have hnone : o.gaps r = [] := by
        rw [Occurrence.gaps, hv, Term.gaps, Term.slots_var, hindex]
        simp [hat.not_isGap]
      generalize hend : s.root i = e
      generalize hend' : s'.root j = e'
      have hends := h.ends hat
      rw [hend, hend'] at hends
      cases hends with
      | node hnode =>
        have hderef' : s'.deref o = s'.root j :=
          h.settles'.deref_eq_root_of_isVar hslot (by rwa [hend'])
        have hderef : s.deref (o.readBy r) = s.root i :=
          h.settles.deref_eq_root_of_isVar hslot' (by rwa [hend, Occurrence.isVar_readBy])
        rw [hderef', hend'] at hfits
        have hfree : e'.gaps r = [] := by
          rw [Occurrence.gaps, ← hfits.isAnonymousFree_readBy]
          rwa [hderef, hend] at hplain
        rw [hend'] at hderef'
        rw [hend] at hderef
        exact .node ⟨by rwa [hderef'], by rw [hderef, hderef'], by rwa [hderef'],
          by rw [hderef', hfree, hnone], Or.inr (by rw [hderef', hfree])⟩
      | @free _ _ k k' hk hk' =>
        have hderef' : (s'.deref o).slot? = some k' := by
          rw [h.settles'.slot?_deref hslot, hend', hk']
        have hderef : (s.deref (o.readBy r)).slot? = some k := by
          rw [h.settles.slot?_deref hslot', hend, hk]
        obtain ⟨v, hv, hindex⟩ := Occurrence.exists_var_of_slot? hderef'
        obtain ⟨w, hw, hindex'⟩ := Occurrence.exists_var_of_slot? hderef
        rw [hv] at hfits
        rw [hw, Term.isAnonymousFree_var] at hplain
        exact .free hv hw hfits.var_cases.1 hplain hindex hindex'
          ⟨j, i, hat, by rw [hend', hk'], by rw [hend, hk]⟩

/-- An occurrence that ends at a term is read as one that does. -/
theorem met (h : Tracks r s s') (ho : o.term.Fits r) (hloose : ∀ g ∈ o.gaps r, Loose r s' g)
    (hnode : (s'.deref o).isVar = false) : Met r s s' o := by
  cases h.faces ho hloose with
  | node hmet => exact hmet
  | gap hself hv => simp [hself, Occurrence.isVar, hv] at hnode
  | free hv => simp [Occurrence.isVar, hv] at hnode

/-- Where a slot ends that is read can be read. -/
theorem fits_root (h : Tracks r s s') (hat : r.At j i) : (s'.root j).term.Fits r :=
  h.fits_deref ⟨fun v hv => by
    obtain rfl := Term.var.inj (List.mem_singleton.1 hv)
    exact ⟨rfl, j, hat.lt_length, rfl⟩, rfl⟩

/-- A slot that ends at a term is read as one that ends at what the term stands for. -/
theorem root_of_node (h : Tracks r s s') (hat : r.At j i) (hnode : (s'.root j).isVar = false) :
    s.root i = (s'.root j).readBy r ∧ (s'.root j).term.Fits r ∧ (s'.root j).term.gaps r = [] := by
  have hfits := h.fits_root hat
  have hplain : (s.root i).term.isAnonymousFree := h.isAnonymousFree_deref rfl
  have hread : s.root i = (s'.root j).readBy r := by
    generalize hend : s.root i = e
    generalize hend' : s'.root j = e'
    have hends := h.ends hat
    rw [hend, hend'] at hends
    cases hends with
    | node => rfl
    | free _ hslot =>
      rw [hend'] at hnode
      rw [Occurrence.slot?_of_isVar_eq_false hnode] at hslot
      cases hslot
  refine ⟨hread, hfits, ?_⟩
  rw [← hfits.isAnonymousFree_readBy]
  rwa [hread] at hplain

/-- What is beneath a slot is read as what is beneath the slot it is read as. -/
theorem exists_at_of_beneath (h : Tracks r s s') (hat : r.At j i)
    (hpath : Relation.ReflTransGen s'.Beneath j m') :
    ∃ m, r.At m' m ∧ Relation.ReflTransGen s.Beneath i m := by
  induction hpath with
  | refl => exact ⟨i, hat, .refl⟩
  | @tail b' c' _ hstep ih =>
    obtain ⟨b, hatb, hpath⟩ := ih
    obtain ⟨hnode, hc'⟩ := hstep
    obtain ⟨hread, hfits, hgaps⟩ := h.root_of_node hatb hnode
    rcases Reading.isGap_or_at (hfits.lt_length hc') with hgap | ⟨c, hatc⟩
    · have hmem := Term.mem_gaps.2 ⟨hc', hgap⟩
      rw [hgaps] at hmem
      cases hmem
    · refine ⟨c, hatc, hpath.tail ⟨?_, ?_⟩⟩
      · rwa [hread, Occurrence.isVar_readBy]
      · rw [hread, Occurrence.term_readBy, hfits.mem_slots_readBy]
        exact ⟨c', hc', hatc⟩

/-- What is beneath a slot ends at a free slot where what is beneath the slot that is read as it
ends at the slot that stands for the free one. -/
theorem endsAt_iff (h : Tracks r s s') (hat : r.At j i) (hk : Stands r s s' k' k) :
    s.EndsAt i k ↔ s'.EndsAt j k' := by
  constructor
  · rintro ⟨m, hpath, hm⟩
    obtain ⟨m', hatm, hpath'⟩ : ∃ m', r.At m' m ∧ Relation.ReflTransGen s'.Beneath j m' := by
      clear hm
      induction hpath with
      | refl => exact ⟨j, hat, .refl⟩
      | @tail b c _ hstep ih =>
        obtain ⟨b', hatb, hpath'⟩ := ih
        obtain ⟨hnode, hc⟩ := hstep
        have hnode' : (s'.root b').isVar = false := by rwa [← h.isVar_root hatb]
        obtain ⟨hread, hfits, _⟩ := h.root_of_node hatb hnode'
        rw [hread, Occurrence.term_readBy, hfits.mem_slots_readBy] at hc
        obtain ⟨c', hc', hatc⟩ := hc
        exact ⟨c', hatc, hpath'.tail ⟨hnode', hc'⟩⟩
    exact ⟨m', hpath', (h.slot?_root_iff hatm hk).1 hm⟩
  · rintro ⟨m', hpath', hm'⟩
    obtain ⟨m, hatm, hpath⟩ := h.exists_at_of_beneath hat hpath'
    exact ⟨m, hpath, (h.slot?_root_iff hatm hk).2 hm'⟩

/-- Nothing is beneath a loose gap. -/
theorem eq_of_endsAt_loose (hg : Loose r s' g) (h : s'.EndsAt g k') : k' = g := by
  obtain ⟨m', hpath, hm'⟩ := h
  have hroot := root_of_free hg.free
  rcases Relation.ReflTransGen.cases_head hpath with rfl | ⟨n, ⟨hnode, _⟩, _⟩
  · rw [hroot] at hm'
    exact (Option.some.inj hm').symm
  · rw [hroot] at hnode
    cases hnode

/-- A free slot is reached from what a term stands for where the slot that stands for it is
reached from the term. -/
theorem reaches_iff {t : Term} (h : Tracks r s s') (ht : t.Fits r)
    (hloose : ∀ g ∈ t.gaps r, Loose r s' g) (hk : Stands r s s' k' k) :
    s.Reaches (t.readBy r) k ↔ s'.Reaches t k' := by
  obtain ⟨hfree, hfree'⟩ := h.valueAt_of_stands hk
  rw [h.settles.reaches_iff hfree, h.settles'.reaches_iff hfree']
  constructor
  · rintro ⟨i, hi, hend⟩
    obtain ⟨j, hj, hat⟩ := ht.mem_slots_readBy.1 hi
    exact ⟨j, hj, (h.endsAt_iff hat hk).1 hend⟩
  · rintro ⟨j, hj, hend⟩
    rcases Reading.isGap_or_at (ht.lt_length hj) with hgap | ⟨i, hat⟩
    · have hg := hloose j (Term.mem_gaps.2 ⟨hj, hgap⟩)
      exact absurd (eq_of_endsAt_loose hg hend) (hk.ne_of_loose hg)
    · exact ⟨i, ht.mem_slots_readBy.2 ⟨j, hj, hat⟩, (h.endsAt_iff hat hk).2 hend⟩

/-- A loose gap is reached only from terms in which it stands. -/
theorem not_reaches_of_loose {t : Term} (h : Tracks r s s') (ht : t.Fits r)
    (hloose : ∀ g ∈ t.gaps r, Loose r s' g) (hg : Loose r s' g) (hmem : g ∉ t.gaps r) :
    ¬ s'.Reaches t g := by
  rw [h.settles'.reaches_iff hg.free]
  rintro ⟨j, hj, hend⟩
  rcases Reading.isGap_or_at (ht.lt_length hj) with hgap | ⟨i, hat⟩
  · have hjmem := Term.mem_gaps.2 ⟨hj, hgap⟩
    obtain rfl := eq_of_endsAt_loose (hloose j hjmem) hend
    exact hmem hjmem
  · obtain ⟨m', hpath, hm'⟩ := hend
    obtain ⟨m, hatm, _⟩ := h.exists_at_of_beneath hat hpath
    exact hg.apart hatm hm'

end Tracks

end Substitution

end ClauseResolution
