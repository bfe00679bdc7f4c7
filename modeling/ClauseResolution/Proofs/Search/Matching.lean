import ClauseResolution.Proofs.Search.Gaps

/-!
# Matching clauses with variables for the gaps

A call is unified with the heads of clauses that have new variables for the anonymous one, in the
order of the clauses, and so is the call for which it stands with the heads of the clauses without.
As long as the latter puts no blank into the store, the same clause matches, and its body is read as
the body of the other. A store without blanks in the end had none on the way, because nothing is
reclaimed.
-/

namespace ClauseResolution

open Substitution

section Matching

variable {config : Config} {r q : Reading} {s s' : Substitution} {σ τ : Store} {c : Context}
  {call : Call} {head body : Occurrence} {barrier depth inner height mark steps : Nat}
  {next : List Frame} {clauses clauses' : List Clause}

variable (config steps) in
/-- A call is unified with a head as the call for which it stands with the head for which the
other stands. -/
theorem Carries.unifyHead (hc : σ.Holds c)
    (h : Carries r (σ.substitution c) s' (.goal body inner height ::
      .call call barrier depth :: next))
    (henters : Enters r s' head (.goal body inner height :: .call call barrier depth :: next))
    (hplain : ((call.map (Occurrence.readBy r)).unifyHead config steps σ c
      (head.readBy r)).Plain) :
    Verdict.Carries r (.goal body inner height :: next)
      ((σ.substitution c).unifyHead config steps (call.map (Occurrence.readBy r)) (head.readBy r))
      (s'.unifyHead config steps call head) := by
  have hcall : (Frame.call call barrier depth).Fits r :=
    h.fits _ (List.mem_cons_of_mem _ List.mem_cons_self)
  have hargs := head.args_readBy (r := r)
  rw [Call.unifyHead, Occurrence.term_readBy] at hplain
  rw [Substitution.unifyHead, Substitution.unifyHead, Occurrence.term_readBy]
  cases hterm : head.term with
  | atom | number | var => trivial
  | compound functor args varCount =>
    rw [hterm] at hplain
    simp only [Term.readBy_compound, List.length_map] at hplain ⊢
    have hlength : (call.map (Occurrence.readBy r)).args.length = call.args.length :=
      List.length_map _
    have hfunctor : (call.map (Occurrence.readBy r)).functor = call.functor := rfl
    rw [hlength, hfunctor] at hplain ⊢
    by_cases hfits : call.functor = functor ∧ call.args.length = args.length
    swap
    · rw [if_neg hfits, if_neg hfits]
      trivial
    rw [if_pos hfits] at hplain ⊢
    rw [if_pos hfits]
    have hzip : (call.map (Occurrence.readBy r)).args.zip (head.readBy r).args =
        (call.args.zip head.args).map (readPair r) := by
      rw [hargs]
      exact List.zip_map ..
    rw [hzip] at hplain ⊢
    have harity : call.args.length = head.args.length := by
      rw [hfits.2, Occurrence.length_args, hterm, Term.args]
    have hvar : head.isVar = false := by rw [Occurrence.isVar, hterm]
    have hgaps : (pairGaps r (call.args.zip head.args) ++
        (Frame.goal body inner height :: next).flatMap (Frame.gaps r)).Perm
          (head.gaps r ++ (Frame.goal body inner height :: .call call barrier depth :: next).flatMap
            (Frame.gaps r)) := by
      rw [pairGaps, List.map_fst_zip harity.le, List.map_snd_zip harity.ge,
        Occurrence.flatMap_gaps_args hvar, List.perm_iff_count]
      intro g
      simp only [List.flatMap_cons, Frame.gaps_goal, Frame.gaps_call, List.count_append]
      omega
    have hafter : Carries r (σ.substitution c) s' (.goal body inner height :: next) :=
      h.sublist (.cons_cons _ (.cons _ (.refl _)))
    have hblanks : (head.args.map (Occurrence.readBy r)).flatMap Occurrence.blanks =
        (head.readBy r).blanks := by
      rw [← hargs, Occurrence.flatMap_blanks_args ((Occurrence.isVar_readBy _).trans hvar)]
    refine hafter.unifyPairs hc ⟨fun p hp => ?_, List.forall_mem_nil _, ?_, ?_, .start ?_,
      .start ?_, ?_⟩ hplain
    · obtain ⟨hfst, hsnd⟩ := List.of_mem_zip hp
      exact ⟨hcall.fits _ hfst, henters.fits.of_mem_args (Occurrence.term_mem_args hsnd)⟩
    · exact hgaps.nodup_iff.2 henters.nodup
    · intro g hg
      rcases List.mem_append.1 (hgaps.mem_iff.1 hg) with hnew | hold
      · exact henters.loose g hnew
      · exact h.loose g hold
    · rw [List.map_fst_zip harity.le]
      exact hcall.distinct
    · rw [List.map_snd_zip harity.ge, hblanks]
      exact Occurrence.nodup_blanks _
    · rw [List.map_fst_zip harity.le, List.map_snd_zip harity.ge, hblanks]
      -- A head stands in a text in which no goal has a blank.
      intro b hleft hright
      have hbody := hcall.body b hleft
      obtain ⟨_, _, rfl⟩ := List.mem_map.1 hright
      have htext : head.text % 2 = 0 := hbody
      rw [henters.text] at htext
      cases htext

/-- The second unification ends as the first, and the goals after it are read as those after the
first. -/
def Verdict.ReadsAs (frames frames' : List Frame) : Verdict → Verdict → Prop
  | .unified s, .unified s' => ClauseResolution.ReadsAs s frames s' frames'
  | .clash, .clash => True
  | .unfinished, _ => True
  | _, _ => False

/-- The first clause that matches is the one with new variables, and the goals that remain are
read as those that remain. -/
def Hit.ReadsAs (frames frames' : List Frame) : Hit → Hit → Prop
  | .found s body isFact untried, .found s' body' isFact' untried' =>
    isFact' = isFact ∧ List.Forall₂ Clause.Fills untried untried' ∧ ∀ barrier depth,
      ClauseResolution.ReadsAs s (.goal body barrier depth :: frames) s'
        (.goal body' barrier depth :: frames')
  | .missing, .missing => True
  | .unfinished, _ => True
  | _, _ => False

/-- No blank is in the store that a look for a matching clause leaves. -/
def ClauseMatch.Plain : ClauseMatch → Prop
  | .found σ .. | .missing σ => σ.Plain
  | .unfinished => True

/-- Without reclaiming the store stays as it is. -/
theorem Config.reclaim_eq (h : config.reclaimBindings = false) (mark : Nat) (σ : Store) :
    config.reclaim mark σ = σ := by
  rw [reclaim, h]
  rfl

/-- Where nothing is reclaimed, the mark does not matter. -/
theorem firstMatch_mark (hreclaim : config.reclaimBindings = false) (mark mark' : Nat) :
    firstMatch config steps c mark call τ clauses =
      firstMatch config steps c mark' call τ clauses := by
  induction clauses generalizing τ with
  | nil => rfl
  | cons clause clauses ih =>
    rw [firstMatch, firstMatch]
    simp only [Config.reclaim_eq hreclaim, ih]

/-- A store had no blanks if a look for a matching clause leaves none there. -/
theorem ClauseMatch.Plain.store (hreclaim : config.reclaimBindings = false) (hc : τ.Holds c)
    (hsettles : (τ.substitution c).Settles)
    (hplain : (firstMatch config steps c mark call τ clauses).Plain)
    (hends : firstMatch config steps c mark call τ clauses ≠ .unfinished) : τ.Plain := by
  induction clauses generalizing τ with
  | nil => exact hplain
  | cons clause clauses ih =>
    have hhead := Call.unifyHead_realizes config steps (c := (clause.rename c).context) hc
      (hsettles.withTop _) call (clause.rename c).head
    rw [firstMatch] at hplain hends
    cases hu : call.unifyHead config steps τ (clause.rename c).context (clause.rename c).head with
    | unfinished => simp [hu] at hends
    | unified υ d =>
      rw [hu] at hhead hplain
      exact hhead.plain hplain Unified.noConfusion
    | clash υ =>
      rw [hu] at hhead
      have hgrows := hhead.grows
      simp only [hu, Config.reclaim_eq hreclaim] at hplain hends
      have hcontext := hgrows.keeps.substitution_eq hc
      exact hgrows.plain (ih (hc.trans hgrows.size_le) (by rwa [hcontext]) hplain hends)

variable (config steps) in
/-- The instances of a clause with new variables and of the one without are unified with calls that
are read as each other, and end alike. -/
theorem Carries.unifyClause {clause clause' : Clause} (hc : τ.Holds c)
    (h : Carries r (τ.substitution c) s' (.call call barrier depth :: next))
    (hread : Clause.ReadAs q clause clause')
    (hplain : ((call.map (Occurrence.readBy r)).unifyHead config steps τ (clause.rename c).context
      (clause.rename c).head).Plain) :
    Verdict.ReadsAs
      (.goal (clause.rename (τ.substitution c).context).body 0 0 :: next.map (Frame.readBy r))
      (.goal (clause'.rename s'.context).body 0 0 :: next)
      (((τ.substitution c).allocate clause.varCount).unifyHead config steps
        (call.map (Occurrence.readBy r)) (clause.rename (τ.substitution c).context).head)
      ((s'.allocate clause'.varCount).unifyHead config steps call
        (clause'.rename s'.context).head) := by
  obtain ⟨hnew, henters, hhead, hbody⟩ := h.allocate hread 0 0
  have hsame : call.map (Occurrence.readBy (r ++ q.shift (τ.substitution c).top)) =
      call.map (Occurrence.readBy r) :=
    (Frame.call.inj ((h.fits _ List.mem_cons_self).readBy_append _)).1
  have hframes : next.map (Frame.readBy (r ++ q.shift (τ.substitution c).top)) =
      next.map (Frame.readBy r) := List.map_congr_left fun frame hframe =>
    (h.fits frame (List.mem_cons_of_mem _ hframe)).readBy_append _
  have hunify := hnew.unifyHead config steps (c := (clause.rename c).context) hc henters
  rw [hsame, hhead] at hunify
  have hcarries := hunify hplain
  change Verdict.Carries _ _ (((τ.substitution c).allocate clause.varCount).unifyHead config steps
    (call.map (Occurrence.readBy r)) (clause.rename (τ.substitution c).context).head) _ at hcarries
  generalize ((τ.substitution c).allocate clause.varCount).unifyHead config steps
    (call.map (Occurrence.readBy r)) (clause.rename (τ.substitution c).context).head = verdict
    at hcarries ⊢
  generalize (s'.allocate clause'.varCount).unifyHead config steps call
    (clause'.rename s'.context).head = verdict' at hcarries ⊢
  cases verdict <;> cases verdict' <;> try exact hcarries
  refine ⟨_, hcarries, ?_⟩
  rw [List.map_cons, hframes, ← hbody]
  rfl

/-- The same clause matches, and what remains is read as what remains there. -/
theorem Carries.firstMatch (hreclaim : config.reclaimBindings = false) (hc : τ.Holds c)
    (h : Carries r (τ.substitution c) s' (.call call barrier depth :: next))
    (hclauses : List.Forall₂ Clause.Fills clauses clauses')
    (hplain : (firstMatch config steps c mark (call.map (Occurrence.readBy r)) τ clauses).Plain) :
    Hit.ReadsAs (next.map (Frame.readBy r)) next
      ((τ.substitution c).firstMatch config steps (call.map (Occurrence.readBy r)) clauses)
      (s'.firstMatch config steps call clauses') := by
  induction hclauses generalizing τ with
  | nil => trivial
  | @cons clause clause' clauses clauses' hfills hrest ih =>
    obtain ⟨q, hread⟩ := hfills.exists_readAs
    have hverdict := h.unifyClause config steps hc hread
    have hrealizes := Call.unifyHead_realizes config steps (c := (clause.rename c).context) hc
      (h.tracks.settles.withTop _) (call.map (Occurrence.readBy r)) (clause.rename c).head
    change Unified.Realizes τ _ (((τ.substitution c).allocate clause.varCount).unifyHead config
      steps (call.map (Occurrence.readBy r)) (clause.rename (τ.substitution c).context).head)
      at hrealizes
    rw [ClauseResolution.firstMatch] at hplain
    rw [Substitution.firstMatch, Substitution.firstMatch]
    generalize ((τ.substitution c).allocate clause.varCount).unifyHead config steps
      (call.map (Occurrence.readBy r)) (clause.rename (τ.substitution c).context).head = verdict
      at hverdict hrealizes ⊢
    generalize (s'.allocate clause'.varCount).unifyHead config steps call
      (clause'.rename s'.context).head = verdict' at hverdict ⊢
    cases hu : (call.map (Occurrence.readBy r)).unifyHead config steps τ
        (clause.rename c).context (clause.rename c).head with
    | unfinished =>
      rw [hu] at hrealizes
      cases verdict with
      | unified | clash => exact hrealizes.elim
      | unfinished => trivial
    | unified υ d =>
      rw [hu] at hrealizes hplain hverdict
      replace hverdict := hverdict hplain
      cases verdict with
      | clash | unfinished => exact hrealizes.elim
      | unified s =>
        cases verdict' with
        | clash | unfinished => exact hverdict.elim
        | unified s'' => exact ⟨hread.isFact_eq, hrest, fun barrier depth => hverdict.goal _ _⟩
    | clash υ =>
      rw [hu] at hrealizes hplain hverdict
      have hgrows := hrealizes.grows
      simp only [Config.reclaim_eq hreclaim] at hplain
      have hcontext := hgrows.keeps.substitution_eq hc
      have hsettles : (υ.substitution c).Settles := hcontext ▸ h.tracks.settles
      have hnext := ih (hc.trans hgrows.size_le) (by rwa [hcontext]) hplain
      rw [hcontext] at hnext
      cases verdict with
      | unified | unfinished => exact hrealizes.elim
      | clash =>
        by_cases hends : ClauseResolution.firstMatch config steps c mark
            (call.map (Occurrence.readBy r)) υ clauses = .unfinished
        · have hrest := firstMatch_realizes config steps (Store.Keeps.refl (Nat.le_refl υ.size))
            (hc.trans hgrows.size_le) hsettles (call.map (Occurrence.readBy r)) clauses
          rw [firstMatch_mark hreclaim υ.size mark, hends, hcontext] at hrest
          dsimp only
          generalize (τ.substitution c).firstMatch config steps (call.map (Occurrence.readBy r))
            clauses = hit at hrest ⊢
          cases hit with
          | found | missing => exact hrest.elim
          | unfinished => trivial
        · have hclash := hverdict (ClauseMatch.Plain.store hreclaim (hc.trans hgrows.size_le)
            hsettles hplain hends)
          cases verdict' with
          | unified | unfinished => exact hclash.elim
          | clash => exact hnext

end Matching

end ClauseResolution
