import ClauseResolution.Proofs.Clause.Readings
import ClauseResolution.Proofs.Search.Freshness
import ClauseResolution.Proofs.Search.Mapping
import ClauseResolution.Proofs.Search.View
import ClauseResolution.Proofs.Unification.Gaps
import Mathlib.Data.List.Flatten

/-!
# A branch with variables for the gaps

The goals of a branch are read as the goals of another one when the one substitution tracks the
other, and each gap in the goals is loose and stands in one place. A goal is replaced by parts of
itself, so its gaps are divided among them. A clause that is entered brings gaps of its own, which
are loose because nothing has bound the slots that are allocated for it. The blanks of its head
stand in no goal: a goal is written in a query or in the body of a clause, and where it is the
value of a variable it has no blank.
-/

namespace ClauseResolution

open Substitution

namespace Substitution

variable {r q : Reading} {s s' : Substitution} {g i j k count count' : Nat}

/-- Allocating slots does not change at which slot a variable ends. -/
theorem root_allocate (s : Substitution) (count slot : Nat) :
    (s.allocate count).root slot = s.root slot := s.deref_withTop _ _

/-- A slot from the top on is free. -/
theorem Confines.valueAt_of_le (h : s.Confines) (hle : s.top ≤ i) : s.valueAt i = none := by
  cases hvalue : s.valueAt i with
  | none => rfl
  | some value =>
    have hlt := h.slot_lt i value (mem_bindings_of_valueAt hvalue)
    omega

/-- A slot below the top ends below it. -/
theorem Confines.root_lt (h : s.Confines) (hi : i < s.top) (hroot : (s.root i).slot? = some k) :
    k < s.top := by
  have hscope : (s.root i).term.Scoped s.top :=
    h.deref (Term.scoped_var.2 (Or.inr ⟨i, hi, rfl⟩))
  obtain ⟨v, hv, hindex⟩ := Occurrence.exists_var_of_slot? hroot
  rw [hv] at hscope
  exact hscope.slot_lt (Term.mem_slots_var.2 hindex)

/-- What stands for a slot is below the top, and so is the slot. -/
theorem Tracks.stands_lt (h : Tracks r s s') (hs : s.Confines) (hs' : s'.Confines)
    (hk : Stands r s s' j i) : j < s'.top ∧ i < s.top := by
  obtain ⟨m', m, hat, hroot', hroot⟩ := hk
  exact ⟨hs'.root_lt (h.length ▸ hat.lt_length) hroot', hs.root_lt (h.covers.lt hat) hroot⟩

section Allocate

variable (h : Tracks r s s') (hs : s.Confines) (hs' : s'.Confines)

include h hs'

/-- A loose gap stays loose. -/
theorem Loose.allocate (hg : Loose r s' g) :
    Loose (r ++ q.shift s.top) (s'.allocate count') g := by
  have hlt : g < r.length := (List.getElem?_eq_some_iff.1 hg.gap).1
  refine ⟨?_, hg.free, fun hat hroot => ?_⟩
  · rw [Reading.IsGap, List.getElem?_append_left hlt]
    exact hg.gap
  · rw [root_allocate] at hroot
    rcases Reading.at_shift_cases hat with hold | ⟨j', i', hnew, rfl, rfl⟩
    · exact hg.apart hold hroot
    · rw [h.length, root_of_free (hs'.valueAt_of_le (Nat.le_add_right _ _))] at hroot
      have heq : s'.top + j' = g := Option.some.inj hroot
      rw [h.length] at hlt
      omega

/-- A gap that is allocated is loose. -/
theorem Tracks.loose_allocate (hj : q.IsGap j) :
    Loose (r ++ q.shift s.top) (s'.allocate count') (s'.top + j) := by
  refine ⟨?_, hs'.valueAt_of_le (Nat.le_add_right _ _), fun hat hroot => ?_⟩
  · rw [← h.length]
    exact (Reading.isGap_shift r q s.top j).2 hj
  · rw [root_allocate] at hroot
    rcases Reading.at_shift_cases hat with hold | ⟨j', i', hnew, rfl, rfl⟩
    · have hlt := hs'.root_lt (h.length ▸ hold.lt_length) hroot
      omega
    · rw [h.length, root_of_free (hs'.valueAt_of_le (Nat.le_add_right _ _))] at hroot
      have heq : s'.top + j' = s'.top + j := Option.some.inj hroot
      obtain rfl : j' = j := by omega
      exact hnew.not_isGap hj

include hs

/-- With more slots, one stands for another as before, or it is allocated with it. -/
theorem Tracks.stands_allocate (hk : Stands (r ++ q.shift s.top) (s.allocate count)
    (s'.allocate count') j i) :
    Stands r s s' j i ∨ ∃ j' i', q.At j' i' ∧ j = s'.top + j' ∧ i = s.top + i' := by
  obtain ⟨m', m, hat, hroot', hroot⟩ := hk
  rw [root_allocate] at hroot hroot'
  rcases Reading.at_shift_cases hat with hold | ⟨m', m, hnew, rfl, rfl⟩
  · exact Or.inl ⟨m', m, hold, hroot', hroot⟩
  · rw [h.length, root_of_free (hs'.valueAt_of_le (Nat.le_add_right _ _))] at hroot'
    rw [root_of_free (hs.valueAt_of_le (Nat.le_add_right _ _))] at hroot
    exact Or.inr ⟨m', m, hnew, (Option.some.inj hroot').symm, (Option.some.inj hroot).symm⟩

/-- Both substitutions allocate slots that are read as each other. -/
theorem Tracks.allocate (hcovers : q.Covers count) (hlength : q.length = count') :
    Tracks (r ++ q.shift s.top) (s.allocate count) (s'.allocate count') := by
  refine ⟨h.settles.withTop _, h.settles'.withTop _, h.covers.shift hcovers, ?_, h.plain,
    fun binding hmem => (h.fits binding hmem).append _, fun hat => ?_, fun hk hm => ?_,
    fun hk hm => ?_⟩
  · rw [List.length_append, Reading.length_shift, h.length, hlength]
    rfl
  · rw [root_allocate, root_allocate]
    rcases Reading.at_shift_cases hat with hold | ⟨j', i', hnew, rfl, rfl⟩
    · exact (h.ends hold).append (h.fits_root hold) _
    · rw [h.length, root_of_free (hs'.valueAt_of_le (Nat.le_add_right _ _)),
        root_of_free (hs.valueAt_of_le (Nat.le_add_right _ _))]
      exact .free (Occurrence.slot?_ofSlot _) (Occurrence.slot?_ofSlot _)
  -- What stands for a slot that was there before is below the top, and the rest is not.
  · rcases h.stands_allocate hs hs' hk with hold | ⟨j', i', hnew, hj, rfl⟩ <;>
      rcases h.stands_allocate hs hs' hm with hold' | ⟨m', n', hnew', hm', rfl⟩
    · exact h.functional hold hold'
    · have hlt := (h.stands_lt hs hs' hold).1
      omega
    · have hlt := (h.stands_lt hs hs' hold').1
      omega
    · obtain rfl : j' = m' := by omega
      rw [hnew.functional hnew']
  · rcases h.stands_allocate hs hs' hk with hold | ⟨j', i', hnew, rfl, hi⟩ <;>
      rcases h.stands_allocate hs hs' hm with hold' | ⟨m', n', hnew', rfl, hn⟩
    · exact h.injective hold hold'
    · have hlt := (h.stands_lt hs hs' hold).2
      omega
    · have hlt := (h.stands_lt hs hs' hold').2
      omega
    · obtain rfl : i' = n' := by omega
      rw [hcovers.injective hnew hnew']

end Allocate

end Substitution

/-- The occurrences in a frame. -/
def Frame.occurrences : Frame → List Occurrence
  | .goal target _ _ => [target]
  | .call callee _ _ => callee.args
  | .cutTo _ => []

/-- The frame as it is read. -/
def Frame.readBy (r : Reading) (frame : Frame) : Frame := frame.map (Occurrence.readBy r)

/-- The gaps in a frame. -/
def Frame.gaps (r : Reading) (frame : Frame) : List Nat :=
  frame.occurrences.flatMap (Occurrence.gaps r)

/-- The blanks in what a frame is read as. -/
def Frame.blanks (r : Reading) (frame : Frame) : List (Nat × Nat) :=
  (frame.occurrences.map (Occurrence.readBy r)).flatMap Occurrence.blanks

/-- A frame can be read, and no blank is in two of its occurrences. -/
structure Frame.Fits (r : Reading) (frame : Frame) : Prop where
  /-- The terms can be read. -/
  fits : ∀ o ∈ frame.occurrences, o.term.Fits r
  /-- The blanks differ. -/
  distinct : (frame.blanks r).Nodup
  /-- No blank stands in the head of a clause. -/
  body : ∀ b ∈ frame.blanks r, b.1 % 2 = 0

/-- What is read off an occurrence is read as what is read off the one it stands for. -/
theorem Occurrence.keepsCalls_readBy (r : Reading) : KeepsCalls (readBy r) := by
  intro o
  have hargs := o.args_readBy (r := r)
  obtain ⟨text, node, term⟩ := o
  cases term with
  | atom | number | var => rfl
  | compound functor args varCount =>
    simp only [Call.ofOccurrence, term_readBy, Term.readBy_compound, Except.map, Call.map, hargs]

namespace Call

variable {o : Occurrence} {call : Call}

/-- The arguments of a call are those of the term it is read off, which is no variable. -/
theorem args_of_ofOccurrence (h : ofOccurrence o = .ok call) :
    o.isVar = false ∧ call.args = o.args := by
  obtain ⟨text, node, term⟩ := o
  cases term with
  | atom name => cases h; exact ⟨rfl, rfl⟩
  | compound functor args varCount => cases h; exact ⟨rfl, rfl⟩
  | number | var => cases h

/-- No call is read off a variable. -/
theorem ofOccurrence_of_var {v : Var} (h : o.term = .var v) :
    ofOccurrence o = .error .instantiation := by
  rw [ofOccurrence, h]

end Call

namespace Frame

variable {r : Reading} {barrier depth : Nat} {target : Occurrence} {call : Call}

/-- The gaps of a goal are those of its target. -/
theorem gaps_goal : (Frame.goal target barrier depth).gaps r = target.gaps r :=
  List.flatMap_singleton ..

/-- The gaps of a call are those of its arguments, in turn. -/
theorem gaps_call :
    (Frame.call call barrier depth).gaps r = call.args.flatMap (Occurrence.gaps r) :=
  rfl

/-- The occurrences of a frame are replaced alike by what is the same on them. -/
theorem map_congr {f g : Occurrence → Occurrence} {frame : Frame}
    (h : ∀ o ∈ frame.occurrences, f o = g o) : frame.map f = frame.map g := by
  cases frame with
  | goal target barrier depth => rw [map, map, h target (List.mem_singleton.2 rfl)]
  | call callee barrier depth =>
    have hargs : callee.args.map f = callee.args.map g := List.map_congr_left h
    rw [map, map, Call.map, Call.map, hargs]
  | cutTo height => rfl

/-- The blanks of an occurrence in a frame are blanks of the frame. -/
theorem mem_blanks {frame : Frame} {o : Occurrence} (ho : o ∈ frame.occurrences)
    {b : Nat × Nat} (hb : b ∈ (o.readBy r).blanks) : b ∈ frame.blanks r :=
  List.mem_flatMap.2 ⟨o.readBy r, List.mem_map_of_mem ho, hb⟩

/-- In one occurrence all blanks differ. -/
theorem Fits.of_length_le_one {frame : Frame} (hlength : frame.occurrences.length ≤ 1)
    (h : ∀ o ∈ frame.occurrences, o.term.Fits r)
    (hbody : ∀ o ∈ frame.occurrences, ∀ b ∈ (o.readBy r).blanks, b.1 % 2 = 0) :
    frame.Fits r := by
  refine ⟨h, ?_, fun b hb => ?_⟩
  swap
  · obtain ⟨_, hmem, hb⟩ := List.mem_flatMap.1 hb
    obtain ⟨o, ho, rfl⟩ := List.mem_map.1 hmem
    exact hbody o ho b hb
  rw [blanks]
  generalize frame.occurrences = os at hlength
  match os with
  | [] => exact List.nodup_nil
  | [o] => simpa using Occurrence.nodup_blanks _

/-- A longer reading makes no difference. -/
theorem Fits.readBy_append {frame : Frame} (h : frame.Fits r) (more : Reading) :
    frame.readBy (r ++ more) = frame.readBy r :=
  map_congr fun o ho => congrArg (Occurrence.mk o.text o.node) ((h.fits o ho).readBy_append more)

/-- A frame that fits a reading fits every longer one. -/
theorem Fits.append {frame : Frame} (h : frame.Fits r) (more : Reading) :
    frame.Fits (r ++ more) := by
  have hsame : frame.occurrences.map (Occurrence.readBy (r ++ more)) =
      frame.occurrences.map (Occurrence.readBy r) := List.map_congr_left fun o ho =>
    congrArg (Occurrence.mk o.text o.node) ((h.fits o ho).readBy_append more)
  have hblanks : frame.blanks (r ++ more) = frame.blanks r :=
    congrArg (List.flatMap Occurrence.blanks) hsame
  exact ⟨fun o ho => (h.fits o ho).append more, hblanks ▸ h.distinct, hblanks ▸ h.body⟩

/-- A frame that fits a reading has no further gaps in a longer one. -/
theorem Fits.gaps_append {frame : Frame} (h : frame.Fits r) (more : Reading) :
    frame.gaps (r ++ more) = frame.gaps r :=
  List.flatMap_congr fun o ho => (h.fits o ho).gaps_append more

end Frame

/-- The goals of a branch can be read, and the gaps in them are loose and different. -/
structure Carries (r : Reading) (s s' : Substitution) (frames : List Frame) : Prop where
  /-- The substitution for which the other stands tracks it. -/
  tracks : Tracks r s s'
  /-- It binds slots below its top only. -/
  confines : s.Confines
  /-- So does the other. -/
  confines' : s'.Confines
  /-- The goals can be read. -/
  fits : ∀ frame ∈ frames, frame.Fits r
  /-- Each gap stands in one place. -/
  nodup : (frames.flatMap (Frame.gaps r)).Nodup
  /-- The gaps are loose. -/
  loose : ∀ g ∈ frames.flatMap (Frame.gaps r), Loose r s' g

/-- The goals of the one branch are what the goals of the other one are read as. -/
def ReadsAs (s : Substitution) (frames : List Frame) (s' : Substitution) (frames' : List Frame) :
    Prop :=
  ∃ r, Carries r s s' frames' ∧ frames = frames'.map (Frame.readBy r)

namespace Carries

variable {r q : Reading} {s s' : Substitution} {frame : Frame} {next : List Frame}
  {barrier depth : Nat} {target : Occurrence} {call : Call}

/-- A frame is replaced by frames among which its gaps are divided. -/
theorem replace (h : Carries r s s' (frame :: next)) (front : List Frame)
    (hfits : ∀ f ∈ front, f.Fits r)
    (hgaps : (front.flatMap (Frame.gaps r)).Sublist (frame.gaps r)) :
    Carries r s s' (front ++ next) := by
  have hall : ((front ++ next).flatMap (Frame.gaps r)).Sublist
      ((frame :: next).flatMap (Frame.gaps r)) := by
    rw [List.flatMap_append, List.flatMap_cons]
    exact hgaps.append_right _
  obtain ⟨_, hnext⟩ := List.forall_mem_cons.1 h.fits
  exact ⟨h.tracks, h.confines, h.confines', List.forall_mem_append.2 ⟨hfits, hnext⟩,
    h.nodup.sublist hall, fun g hg => h.loose g (hall.subset hg)⟩

/-- Frames may be left out. -/
theorem sublist {frames frames' : List Frame} (h : Carries r s s' frames)
    (hsub : frames'.Sublist frames) : Carries r s s' frames' := by
  have hgaps := hsub.flatMap (Frame.gaps r)
  exact ⟨h.tracks, h.confines, h.confines', fun frame hframe => h.fits frame (hsub.subset hframe),
    h.nodup.sublist hgaps, fun g hg => h.loose g (hgaps.subset hg)⟩

/-- What carries a frame and those after it carries those after it. -/
theorem tail (h : Carries r s s' (frame :: next)) : Carries r s s' next :=
  h.sublist (List.sublist_cons_self ..)

/-- The height to which a call cuts and its depth do not matter. -/
theorem reframe (h : Carries r s s' (.call call barrier depth :: next)) (barrier' depth' : Nat) :
    Carries r s s' (.call call barrier' depth' :: next) := by
  have hcall := h.fits _ List.mem_cons_self
  exact h.replace [.call call barrier' depth']
    (List.forall_mem_singleton.2 ⟨hcall.fits, hcall.distinct, hcall.body⟩)
    (by rw [List.flatMap_singleton]; rfl)

/-- Truth has no gaps. -/
theorem truth (h : Carries r s s' next) (barrier depth : Nat) :
    Carries r s s' (.goal (.whole 0 Clause.truth) barrier depth :: next) :=
  ⟨h.tracks, h.confines, h.confines',
    List.forall_mem_cons.2 ⟨.of_length_le_one (Nat.le_refl 1)
      (List.forall_mem_singleton.2 (Term.Fits.atom _))
      (List.forall_mem_singleton.2 (List.forall_mem_nil _)), h.fits⟩, h.nodup, h.loose⟩

/-- The gaps of a goal are loose. -/
theorem loose_of_mem (h : Carries r s s' (frame :: next)) {o : Occurrence}
    (ho : o ∈ frame.occurrences) : ∀ g ∈ o.gaps r, Loose r s' g := by
  intro g hg
  refine h.loose g ?_
  rw [List.flatMap_cons]
  exact List.mem_append_left _ (List.mem_flatMap.2 ⟨o, ho, hg⟩)

/-- The goals can be read. -/
theorem fits_of_mem (h : Carries r s s' (frame :: next)) {o : Occurrence}
    (ho : o ∈ frame.occurrences) : o.term.Fits r :=
  (h.fits frame List.mem_cons_self).fits o ho

/-- No blank of a goal stands in the head of a clause. -/
theorem body_of_mem (h : Carries r s s' (frame :: next)) {o : Occurrence}
    (ho : o ∈ frame.occurrences) : ∀ b ∈ (o.readBy r).blanks, b.1 % 2 = 0 :=
  fun b hb => (h.fits frame List.mem_cons_self).body b (Frame.mem_blanks ho hb)

/-- Goals among the arguments of a call take its place. -/
theorem goals (h : Carries r s s' (.call call barrier depth :: next)) (front : List Frame)
    (hlength : ∀ f ∈ front, f.occurrences.length ≤ 1)
    (hsub : (front.flatMap Frame.occurrences).Sublist call.args) :
    Carries r s s' (front ++ next) := by
  have hmem : ∀ f ∈ front, ∀ o ∈ f.occurrences, o ∈ call.args := fun f hf o ho =>
    hsub.subset (List.mem_flatMap.2 ⟨f, hf, ho⟩)
  refine h.replace front (fun f hf => .of_length_le_one (hlength f hf)
    (fun o ho => h.fits_of_mem (hmem f hf o ho)) fun o ho => h.body_of_mem (hmem f hf o ho)) ?_
  · have hgaps := hsub.flatMap (Occurrence.gaps r)
    rwa [List.flatMap_assoc] at hgaps

/-- The parts of a goal that is an argument of a call take its place. -/
theorem parts {part : Call} (h : Carries r s s' (.call call barrier depth :: next))
    (htarget : target ∈ call.args) (hpart : Call.ofOccurrence target = .ok part)
    (front : List Frame) (hlength : ∀ f ∈ front, f.occurrences.length ≤ 1)
    (hsub : (front.flatMap Frame.occurrences).Sublist part.args) :
    Carries r s s' (front ++ next) := by
  obtain ⟨hvar, hargs⟩ := Call.args_of_ofOccurrence hpart
  have hmem : ∀ f ∈ front, ∀ o ∈ f.occurrences, o ∈ part.args := fun f hf o ho =>
    hsub.subset (List.mem_flatMap.2 ⟨f, hf, ho⟩)
  refine h.replace front (fun f hf => .of_length_le_one (hlength f hf) (fun o ho => ?_)
    fun o ho b hb => h.body_of_mem htarget b ?_) ?_
  · exact (h.fits_of_mem htarget).of_mem_args (Call.term_mem_args hpart (hmem f hf o ho))
  · rw [← Occurrence.flatMap_blanks_args ((Occurrence.isVar_readBy _).trans hvar),
      Occurrence.args_readBy, ← hargs]
    exact List.mem_flatMap.2 ⟨o.readBy r, List.mem_map_of_mem (hmem f hf o ho), hb⟩
  · have hgaps := hsub.flatMap (Occurrence.gaps r)
    rw [List.flatMap_assoc, hargs, Occurrence.flatMap_gaps_args hvar] at hgaps
    have htarget' : (target.gaps r).Sublist (Frame.gaps r (.call call barrier depth)) := by
      have hone := (List.singleton_sublist.2 htarget).flatMap (Occurrence.gaps r)
      rwa [List.flatMap_singleton] at hone
    exact hgaps.trans htarget'

/-- The call that is read off what a goal is followed to. -/
theorem ofOccurrence_deref (h : Carries r s s' (frame :: next)) (ho : target ∈ frame.occurrences) :
    Call.ofOccurrence (s.deref (target.readBy r)) =
      (Call.ofOccurrence (s'.deref target)).map (Call.map (Occurrence.readBy r)) := by
  cases h.tracks.faces (h.fits_of_mem ho) (h.loose_of_mem ho) with
  | node hmet => rw [hmet.read, Occurrence.keepsCalls_readBy r]
  | gap hself hv hnamed hindex hgap hw hanonymous =>
    rw [Call.ofOccurrence_of_var hw, hself, Call.ofOccurrence_of_var hv]
    rfl
  | free hv hw =>
    rw [Call.ofOccurrence_of_var hw, Call.ofOccurrence_of_var hv]
    rfl

/-- Where a call is read off what a goal is followed to, no gap is lost. -/
theorem met (h : Carries r s s' (frame :: next)) (ho : target ∈ frame.occurrences)
    (hcall : Call.ofOccurrence (s'.deref target) = .ok call) : Met r s s' target :=
  h.tracks.met (h.fits_of_mem ho) (h.loose_of_mem ho) (Call.args_of_ofOccurrence hcall).1

/-- The gaps of the arguments of the call are those of the goal. -/
theorem gaps_args (h : Carries r s s' (frame :: next)) (ho : target ∈ frame.occurrences)
    (hcall : Call.ofOccurrence (s'.deref target) = .ok call) :
    call.args.flatMap (Occurrence.gaps r) = target.gaps r := by
  have hmet := h.met ho hcall
  rw [(Call.args_of_ofOccurrence hcall).2, Occurrence.flatMap_gaps_args hmet.node, hmet.gaps]

/-- The arguments of a call that is read off a frame fit the reading. -/
theorem fits_args (h : Carries r s s' (frame :: next)) (ho : target ∈ frame.occurrences)
    (hcall : Call.ofOccurrence (s'.deref target) = .ok call) :
    ∀ arg ∈ call.args, arg.term.Fits r := fun _ harg =>
  (h.met ho hcall).fits.of_mem_args (Call.term_mem_args hcall harg)

/-- The blanks of the arguments are those of the goal, or there are none. -/
theorem blanks_args (h : Carries r s s' (frame :: next)) (ho : target ∈ frame.occurrences)
    (hcall : Call.ofOccurrence (s'.deref target) = .ok call) :
    (call.args.map (Occurrence.readBy r)).flatMap Occurrence.blanks = (target.readBy r).blanks ∨
      (call.args.map (Occurrence.readBy r)).flatMap Occurrence.blanks = [] := by
  have hmet := h.met ho hcall
  have hblanks : (call.args.map (Occurrence.readBy r)).flatMap Occurrence.blanks =
      ((s'.deref target).readBy r).blanks := by
    rw [(Call.args_of_ofOccurrence hcall).2, ← Occurrence.args_readBy]
    exact Occurrence.flatMap_blanks_args ((Occurrence.isVar_readBy _).trans hmet.node)
  rw [hblanks]
  rcases hmet.self_readBy with hself | hfree
  · exact Or.inl (by rw [hself])
  · exact Or.inr (Occurrence.blanks_eq_nil_iff.2 hfree)

/-- The call that a goal is followed to takes its place. -/
theorem followed (h : Carries r s s' (.goal target barrier depth :: next))
    (hcall : Call.ofOccurrence (s'.deref target) = .ok call) :
    Carries r s s' (.call call barrier depth :: next) := by
  have hmem : target ∈ (Frame.goal target barrier depth).occurrences := List.mem_singleton.2 rfl
  have hblanks : (Frame.call call barrier depth).blanks r = (target.readBy r).blanks ∨
      (Frame.call call barrier depth).blanks r = [] := h.blanks_args hmem hcall
  refine h.replace [.call call barrier depth] (List.forall_mem_singleton.2 ⟨?_, ?_, ?_⟩) ?_
  · exact h.fits_args hmem hcall
  · rcases hblanks with hsame | hnone
    · rw [hsame]
      exact Occurrence.nodup_blanks _
    · rw [hnone]
      exact List.nodup_nil
  · rcases hblanks with hsame | hnone
    · rw [hsame]
      exact h.body_of_mem hmem
    · rw [hnone]
      exact List.forall_mem_nil _
  · rw [List.flatMap_singleton, Frame.gaps_goal, Frame.gaps_call, h.gaps_args hmem hcall]

/-- The call that the first argument is followed to, with the others added, takes the place of
the call. -/
theorem called {extra : List Occurrence}
    (h : Carries r s s' (.call ⟨"call", target :: extra⟩ barrier depth :: next))
    (hcall : Call.ofOccurrence (s'.deref target) = .ok call) (barrier' depth' : Nat) :
    Carries r s s' (.call (call.addArgs extra) barrier' depth' :: next) := by
  have hmem : target ∈ (Frame.call ⟨"call", target :: extra⟩ barrier depth).occurrences :=
    List.mem_cons_self
  have hsub : ((Frame.call (call.addArgs extra) barrier' depth').blanks r).Sublist
      ((Frame.call ⟨"call", target :: extra⟩ barrier depth).blanks r) := by
    change (((call.args ++ extra).map (Occurrence.readBy r)).flatMap Occurrence.blanks).Sublist
      (((target :: extra).map (Occurrence.readBy r)).flatMap Occurrence.blanks)
    rw [List.map_append, List.flatMap_append, List.map_cons, List.flatMap_cons]
    rcases h.blanks_args hmem hcall with hsame | hnone
    · rw [hsame]
    · rw [hnone]
      exact List.sublist_append_right _ _
  have hframe := h.fits _ List.mem_cons_self
  refine h.replace [.call (call.addArgs extra) barrier' depth']
    (List.forall_mem_singleton.2 ⟨List.forall_mem_append.2 ⟨h.fits_args hmem hcall, ?_⟩,
      hframe.distinct.sublist hsub, fun b hb => hframe.body b (hsub.subset hb)⟩) ?_
  · exact fun o ho => h.fits_of_mem (List.mem_cons_of_mem _ ho)
  · rw [List.flatMap_singleton, Frame.gaps_call, Frame.gaps_call, Call.addArgs,
      List.flatMap_append, h.gaps_args hmem hcall, List.flatMap_cons]

end Carries

/-- What reads frames as others reads those after the first as those after the first. -/
theorem ReadsAs.tail {s s' : Substitution} {frame frame' : Frame} {frames frames' : List Frame}
    (h : ReadsAs s (frame :: frames) s' (frame' :: frames')) : ReadsAs s frames s' frames' := by
  obtain ⟨r, hcarries, hframes⟩ := h
  exact ⟨r, hcarries.tail, (List.cons.inj hframes).2⟩

/-- The height to which a goal cuts and its depth do not matter. -/
theorem ReadsAs.goal {s s' : Substitution} {frames frames' : List Frame} {goal goal' : Occurrence}
    {barrier depth : Nat}
    (h : ReadsAs s (.goal goal barrier depth :: frames) s' (.goal goal' barrier depth :: frames'))
    (barrier' depth' : Nat) :
    ReadsAs s (.goal goal barrier' depth' :: frames) s'
      (.goal goal' barrier' depth' :: frames') := by
  obtain ⟨r, hcarries, hframes⟩ := h
  rw [List.map_cons] at hframes
  obtain ⟨hgoal, hrest⟩ := List.cons.inj hframes
  refine ⟨r, hcarries.replace [.goal goal' barrier' depth'] ?_ ?_, ?_⟩
  · exact List.forall_mem_singleton.2 (.of_length_le_one (Nat.le_refl 1)
      (hcarries.fits _ List.mem_cons_self).fits fun _ => hcarries.body_of_mem)
  · rw [List.flatMap_singleton, Frame.gaps_goal, Frame.gaps_goal]
  · rw [List.map_cons, hrest, (Frame.goal.inj hgoal).1]
    rfl

/-- The second unification ends as the first, and the goals after it can still be read. -/
def Verdict.Carries (r : Reading) (frames : List Frame) : Verdict → Verdict → Prop
  | .unified s, .unified s' => ClauseResolution.Carries r s s' frames
  | .clash, .clash => True
  | .unfinished, _ => True
  | _, _ => False

namespace Carries

variable {r q : Reading} {s s' : Substitution} {frame : Frame} {next frames : List Frame}
  {barrier depth steps : Nat} {target left right : Occurrence} {call : Call} {σ : Store}
  {c : Context} {occursCheck : Bool} {pairs : List (Occurrence × Occurrence)}

/-- A unification of terms with variables for the gaps ends as the one for which it stands, if
that one puts no blanks into the store. -/
theorem unifyPairs (hc : σ.Holds c) (h : Carries r (σ.substitution c) s' next)
    (hpairs : Pending r s' (next.flatMap (Frame.gaps r)) [] pairs)
    (hplain : (unifyPairs .byOccurrence occursCheck steps σ c [] (pairs.map (readPair r))).Plain) :
    Verdict.Carries r next
      ((σ.substitution c).unifyPairs .byOccurrence occursCheck steps [] (pairs.map (readPair r)))
      (s'.unifyPairs .byOccurrence occursCheck steps [] pairs) := by
  have hreads := Store.unifyPairs_reads hc h.tracks hpairs hplain
  have hrealizes := Store.unifyPairs_realizes hc h.tracks.settles .byOccurrence occursCheck steps []
    (pairs.map (readPair r))
  have hscope : ScopedPairs (σ.substitution c).top (pairs.map (readPair r)) :=
    List.forall_mem_map.2 fun p hp =>
      ⟨(hpairs.fits p hp).1.scoped_readBy h.tracks.covers,
        (hpairs.fits p hp).2.scoped_readBy h.tracks.covers⟩
  have hscope' : ScopedPairs s'.top pairs := fun p hp => by
    rw [← h.tracks.length]
    exact ⟨(hpairs.fits p hp).1.scoped_self, (hpairs.fits p hp).2.scoped_self⟩
  rw [List.map_nil] at hreads
  generalize ClauseResolution.unifyPairs .byOccurrence occursCheck steps σ c []
    (pairs.map (readPair r)) = u
    at hreads hrealizes
  generalize hv : (σ.substitution c).unifyPairs .byOccurrence occursCheck steps []
    (pairs.map (readPair r)) = v
    at hrealizes ⊢
  generalize hv' : s'.unifyPairs .byOccurrence occursCheck steps [] pairs = v' at hreads ⊢
  obtain rfl := hrealizes.verdict_eq
  cases u with
  | unfinished => trivial
  | clash τ =>
    cases v' with
    | unified | unfinished => exact hreads.elim
    | clash => trivial
  | unified τ d =>
    cases v' with
    | clash | unfinished => exact hreads.elim
    | unified =>
      obtain ⟨htracks, hloose⟩ := hreads
      exact ⟨htracks, (h.confines.unifyPairs hscope hv).1,
        (h.confines'.unifyPairs hscope' hv').1, h.fits, h.nodup, hloose⟩

/-- Two arguments of a call are unified. -/
theorem unify {functor : String} (hc : σ.Holds c)
    (h : Carries r (σ.substitution c) s'
      (.call ⟨functor, [left, right]⟩ barrier depth :: next))
    (hplain : (ClauseResolution.unify .byOccurrence occursCheck steps σ c (left.readBy r)
      (right.readBy r)).Plain) :
    Verdict.Carries r next
      ((σ.substitution c).unifyPairs .byOccurrence occursCheck steps []
        [(left.readBy r, right.readBy r)])
      (s'.unifyPairs .byOccurrence occursCheck steps [] [(left, right)]) := by
  have hgaps : pairGaps r [(left, right)] ++ next.flatMap (Frame.gaps r) =
      (Frame.call ⟨functor, [left, right]⟩ barrier depth :: next).flatMap (Frame.gaps r) := by
    rw [List.flatMap_cons, Frame.gaps_call]
    simp [pairGaps]
  have hpending : Pending r s' (next.flatMap (Frame.gaps r)) [] [(left, right)] := by
    refine ⟨List.forall_mem_singleton.2 ⟨h.fits_of_mem (o := left) ?_,
      h.fits_of_mem (o := right) ?_⟩, List.forall_mem_nil _, by rw [hgaps]; exact h.nodup,
      by rw [hgaps]; exact h.loose, .start ?_, .start ?_, ?_⟩
    · exact List.mem_cons_self
    · exact List.mem_cons_of_mem _ List.mem_cons_self
    · simpa using Occurrence.nodup_blanks _
    · simpa using Occurrence.nodup_blanks _
    · have hdistinct := (h.fits _ List.mem_cons_self).distinct
      rw [Frame.blanks, Frame.occurrences, List.map_cons, List.flatMap_cons] at hdistinct
      obtain ⟨_, _, hdisjoint⟩ := List.nodup_append.1 hdistinct
      intro b hleft hright
      exact hdisjoint b (by simpa using hleft) b (by simpa using hright) rfl
  exact h.tail.unifyPairs hc hpending hplain

end Carries

/-- The head of a clause can be read, and the gaps in it are loose and in no goal. -/
structure Enters (r : Reading) (s' : Substitution) (head : Occurrence) (frames : List Frame) :
    Prop where
  /-- The head can be read. -/
  fits : head.term.Fits r
  /-- Its gaps are not among those of the goals. -/
  nodup : (head.gaps r ++ frames.flatMap (Frame.gaps r)).Nodup
  /-- They are loose. -/
  loose : ∀ g ∈ head.gaps r, Loose r s' g
  /-- It is written where no goal is. -/
  text : head.text % 2 = 1

namespace Carries

variable {r q : Reading} {s s' : Substitution} {frames : List Frame}

/-- The slots of a clause are allocated: its head and its body can be read, and the gaps in them
are loose. -/
theorem allocate {clause clause' : Clause} (h : Carries r s s' frames)
    (hread : Clause.ReadAs q clause clause') (barrier depth : Nat) :
    Carries (r ++ q.shift s.top) (s.allocate clause.varCount) (s'.allocate clause'.varCount)
        (.goal (clause'.rename s'.context).body barrier depth :: frames) ∧
      Enters (r ++ q.shift s.top) (s'.allocate clause'.varCount) (clause'.rename s'.context).head
        (.goal (clause'.rename s'.context).body barrier depth :: frames) ∧
      (clause'.rename s'.context).head.readBy (r ++ q.shift s.top) =
        (clause.rename s.context).head ∧
      (clause'.rename s'.context).body.readBy (r ++ q.shift s.top) =
        (clause.rename s.context).body := by
  obtain ⟨hheadFits, hbodyFits⟩ := List.forall_mem_cons.1 hread.fits
  rw [List.forall_mem_singleton] at hbodyFits
  obtain ⟨hhead, hbody⟩ := List.cons.inj hread.read
  have hframe' : clause'.frame s'.context.top = clause'.frame r.length := by
    rw [h.tracks.length]
    rfl
  have hgapsFrames : frames.flatMap (Frame.gaps (r ++ q.shift s.top)) =
      frames.flatMap (Frame.gaps r) :=
    List.flatMap_congr fun frame hframe => (h.fits frame hframe).gaps_append _
  have hgaps : (clause'.rename s'.context).head.gaps (r ++ q.shift s.top) ++
      (Frame.goal (clause'.rename s'.context).body barrier depth :: frames).flatMap
        (Frame.gaps (r ++ q.shift s.top)) =
      ([clause'.head.toTerm, clause'.body].flatMap (Term.gaps q)).map (r.length + ·) ++
        frames.flatMap (Frame.gaps r) := by
    rw [List.flatMap_cons, Frame.gaps_goal, hgapsFrames, Occurrence.gaps, Occurrence.gaps,
      Clause.rename]
    simp only [Context.allocate, Clause.fill, Occurrence.whole, hframe',
      hread.gaps_instantiate hheadFits, hread.gaps_instantiate hbodyFits, List.flatMap_cons,
      List.flatMap_nil, List.append_nil, List.map_append, List.append_assoc]
  have hlt : ∀ g ∈ frames.flatMap (Frame.gaps r), g < r.length := fun g hg =>
    (List.getElem?_eq_some_iff.1 (h.loose g hg).gap).1
  have hnodup : ((clause'.rename s'.context).head.gaps (r ++ q.shift s.top) ++
      (Frame.goal (clause'.rename s'.context).body barrier depth :: frames).flatMap
        (Frame.gaps (r ++ q.shift s.top))).Nodup := by
    rw [hgaps, List.nodup_append]
    refine ⟨hread.nodup.map fun _ _ => Nat.add_left_cancel, h.nodup, ?_⟩
    rintro g hg _ hframe rfl
    obtain ⟨j, _, rfl⟩ := List.mem_map.1 hg
    have hbelow := hlt _ hframe
    omega
  have hloose : ∀ g ∈ (clause'.rename s'.context).head.gaps (r ++ q.shift s.top) ++
      (Frame.goal (clause'.rename s'.context).body barrier depth :: frames).flatMap
        (Frame.gaps (r ++ q.shift s.top)),
      Loose (r ++ q.shift s.top) (s'.allocate clause'.varCount) g := by
    rw [hgaps]
    intro g hg
    rcases List.mem_append.1 hg with hnew | hold
    · obtain ⟨j, hj, rfl⟩ := List.mem_map.1 hnew
      obtain ⟨t, _, hj⟩ := List.mem_flatMap.1 hj
      rw [h.tracks.length]
      exact h.tracks.loose_allocate h.confines' (Term.mem_gaps.1 hj).2
    · exact Loose.allocate h.tracks h.confines' (h.loose g hold)
  have hfitsHead := hread.fits_instantiate hheadFits r s.top
  have hfitsBody := hread.fits_instantiate hbodyFits r s.top
  rw [← hframe'] at hfitsHead hfitsBody
  refine ⟨⟨h.tracks.allocate h.confines h.confines' hread.covers hread.length,
    h.confines.allocate _, h.confines'.allocate _, List.forall_mem_cons.2
      ⟨.of_length_le_one (Nat.le_refl 1) (List.forall_mem_singleton.2 hfitsBody)
        (List.forall_mem_singleton.2 fun b hb => ?_),
      fun frame hframe => (h.fits frame hframe).append _⟩,
    (List.nodup_append.1 hnodup).2.1, fun g hg => hloose g (List.mem_append_right _ hg)⟩,
    ⟨hfitsHead, hnodup, fun g hg => hloose g (List.mem_append_left _ hg), ?_⟩, ?_, ?_⟩
  · obtain ⟨node, _, rfl⟩ := List.mem_map.1 hb
    exact Nat.add_mod_right (2 * clause'.text) 2 |>.trans (Nat.mul_mod_right 2 _)
  · exact Nat.mul_add_mod 2 clause'.text 1
  · have hterm := hread.readBy_instantiate hheadFits r s.top
    rw [hhead, ← hframe'] at hterm
    have htext : clause'.headText = clause.headText := by
      rw [Clause.headText, Clause.headText, hread.text]
    exact congrArg₂ (Occurrence.mk · 0 ·) htext hterm
  · have hterm := hread.readBy_instantiate hbodyFits r s.top
    rw [(List.cons.inj hbody).1, ← hframe'] at hterm
    have htext : clause'.bodyText = clause.bodyText := by
      rw [Clause.bodyText, Clause.bodyText, hread.text]
    exact congrArg₂ (Occurrence.mk · 0 ·) htext hterm

end Carries

end ClauseResolution
