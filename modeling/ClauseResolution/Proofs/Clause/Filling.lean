import ClauseResolution.Proofs.Clause.Numbering

/-!
# New variables for the anonymous one

Each occurrence of the anonymous variable in some terms may be replaced by a new variable. The
slots that are numbered then are read as the slots that were numbered before, in their order, and
those of the new variables are gaps. A gap stands in one place of the terms only.
-/

namespace ClauseResolution

/-- Some names are taken for that of the anonymous variable. -/
def Var.blanked (news : List String) (name : String) : String :=
  if name ∈ news then anonymousName else name

namespace Var

variable {news : List String} {v : Var}

/-- A variable with a new name becomes anonymous. -/
theorem isAnonymous_renamed_blanked (hv : v.name ∈ news) :
    (v.renamed (blanked news)).isAnonymous = true := by
  simp [renamed, blanked, hv, isAnonymous]

/-- A variable with another name stays as it is. -/
theorem renamed_blanked_of_not_mem (hv : v.name ∉ news) : v.renamed (blanked news) = v := by
  simp [renamed, blanked, hv]

end Var

/-- Terms with a new variable for each occurrence of the anonymous one. -/
structure Fills (news : List String) (ts ts' : List Term) : Prop where
  /-- Without the new names the terms are what they were. -/
  blanked : ts'.map (Term.renamed (Var.blanked news)) = ts
  /-- The anonymous variable does not occur any more. -/
  free : ∀ t ∈ ts', t.isAnonymousFree
  /-- Each new variable occurs once. -/
  once : (((ts'.flatMap Term.namedVars).filter (·.name ∈ news)).map Var.name).Nodup

/-- Terms over the slots of some variables are read as terms over the slots of others. -/
structure Reading.Turns (q : Reading) (names' names : List String) (ts' ts : List Term) :
    Prop where
  /-- The slots that are read are those of the others. -/
  covers : q.Covers names.length
  /-- Each slot is read or a gap. -/
  length : q.length = names'.length
  /-- No name is that of the anonymous variable. -/
  named : ∀ name ∈ names', name ≠ Var.anonymousName
  /-- Slots that are read as each other have one name. -/
  names : ∀ {j i}, q.At j i → names'[j]? = names[i]?
  /-- The terms can be read. -/
  fits : ∀ t ∈ ts', t.Fits q
  /-- They are read as the others. -/
  read : ts'.map (Term.readBy q) = ts
  /-- Each gap stands in one place. -/
  nodup : (ts'.flatMap (Term.gaps q)).Nodup

namespace Term

variable {r : Reading} {t : Term} {news : List String}

/-- The variables of a term in which the anonymous one does not stand. -/
theorem isAnonymous_of_mem_leaves (ht : t.isAnonymousFree) {v : Var} (hv : .var v ∈ t.leaves) :
    v.isAnonymous = false := by
  rw [isAnonymousFree, List.all_eq_true] at ht
  simpa using ht _ hv

/-- Without the new names, the other variables are left. -/
theorem namedVars_blanked (ht : t.isAnonymousFree) :
    (t.renamed (Var.blanked news)).namedVars = t.namedVars.filter (·.name ∉ news) := by
  rw [namedVars, namedVars, renamed, leaves_mapVars, List.filterMap_map, List.filter_filterMap]
  refine List.filterMap_congr fun leaf hleaf => ?_
  cases leaf with
  | atom | number | compound => rfl
  | var v =>
    have hv := isAnonymous_of_mem_leaves ht hleaf
    by_cases hnew : v.name ∈ news
    · simp [Var.isAnonymous_renamed_blanked hnew, hv, hnew, Option.filter]
    · simp [Var.renamed_blanked_of_not_mem hnew, hv, hnew, Option.filter]

/-- Variables are counted once more when they are replaced. -/
theorem recount_mapVars_recount (f : Var → Var) (t : Term) :
    (t.recount.mapVars f).recount = (t.mapVars f).recount := by
  induction t with
  | atom | number | var => rfl
  | compound functor args varCount ih =>
    have hargs : ((args.map recount).map (mapVars f)).map recount =
        (args.map (mapVars f)).map recount := by
      simp only [List.map_map]
      exact List.map_congr_left ih
    rw [recount_compound, mapVars_compound, recount_compound, mapVars_compound, recount_compound,
      hargs]

/-- Replacing every variable by itself changes nothing. -/
theorem mapVars_id (t : Term) : t.mapVars id = t := by
  induction t with
  | atom | number | var => rfl
  | compound functor args varCount ih =>
    rw [mapVars_compound, List.map_congr_left ih]
    simp

/-- Counting the variables twice is counting them once. -/
@[simp] theorem recount_recount (t : Term) : t.recount.recount = t.recount := by
  have htwice := t.recount_mapVars_recount id
  rwa [mapVars_id, mapVars_id] at htwice

end Term

namespace Numbering

variable {news : List String} {n n' : Numbering} {v : Var} {t : Term} {i j : Nat}

/-- A numbering in which the new variables are left out. -/
structure Omits (news : List String) (n' n : Numbering) : Prop where
  /-- The others are in the same order. -/
  listed : n.listed = n'.listed.filter (·.name ∉ news)
  /-- No variable has two slots. -/
  nodup : n'.listed.Nodup
  /-- No variable is anonymous. -/
  named : ∀ v ∈ n'.listed, v.isAnonymous = false

/-- The slots with the new variables are read as those without. -/
def reading (news : List String) (n' n : Numbering) : Reading :=
  n'.listed.map fun v => if v.name ∈ news then none else some (n.listed.idxOf v)

/-- The reading has an entry for every variable that is listed. -/
theorem length_reading : (reading news n' n).length = n'.listed.length := List.length_map _

/-- The slot of a variable is read as its slot in the other numbering, or as a gap. -/
theorem reading_idxOf (hv : v ∈ n'.listed) : (reading news n' n)[n'.listed.idxOf v]? =
    some (if v.name ∈ news then none else some (n.listed.idxOf v)) := by
  rw [reading, List.getElem?_map, List.getElem?_idxOf hv, Option.map_some]

/-- The gaps are the slots of the new variables. -/
theorem isGap_reading (hv : v ∈ n'.listed) :
    (reading news n' n).IsGap (n'.listed.idxOf v) ↔ v.name ∈ news := by
  rw [Reading.IsGap, reading_idxOf hv]
  split <;> simp_all

/-- A new variable is read as the anonymous one, and any other as itself. -/
theorem readBy_place (hv : v ∈ n'.listed) (hnamed : v.isAnonymous = false) :
    (n'.place v).readBy (reading news n' n) = n.place (v.renamed (Var.blanked news)) := by
  have hread : (reading news n' n)[n'.listed.idxOf v]? = _ := reading_idxOf hv
  rw [place_named hnamed]
  by_cases hnew : v.name ∈ news
  · rw [if_pos hnew] at hread
    rw [place_anonymous (Var.isAnonymous_renamed_blanked hnew), Var.readBy_of_isGap rfl hread]
  · rw [if_neg hnew] at hread
    rw [Var.renamed_blanked_of_not_mem hnew, place_named hnamed, Var.readBy_of_at rfl hread]

namespace Omits

/-- All slots without the new variables are read, in their order. -/
theorem covers (h : Omits news n' n) : (reading news n' n).Covers n.listed.length := by
  have hnodup : n.listed.Nodup := h.listed ▸ h.nodup.filter _
  have hread : (reading news n' n).reduceOption = n.listed.map n.listed.idxOf := by
    conv_rhs => arg 2; rw [h.listed]
    rw [reading, List.reduceOption, List.filterMap_map, ← List.filterMap_eq_map,
      ← List.filterMap_eq_filter, List.filterMap_filterMap]
    refine List.filterMap_congr fun v _ => ?_
    by_cases hnew : v.name ∈ news <;> simp [hnew, Option.guard]
  rw [Reading.Covers, hread]
  refine List.ext_getElem (by simp) fun i hi hi' => ?_
  simp [hnodup.idxOf_getElem]

/-- Slots that are read as each other have one name. -/
theorem names (h : Omits news n' n) (hat : (reading news n' n).At j i) :
    n'.slotNames[j]? = n.slotNames[i]? := by
  obtain ⟨v, hv, hread⟩ : ∃ v, n'.listed[j]? = some v ∧
      (if v.name ∈ news then none else some (n.listed.idxOf v)) = some i := by
    rwa [Reading.At, reading, List.getElem?_map, Option.map_eq_some_iff] at hat
  split at hread
  · cases hread
  · next hold =>
    obtain rfl := Option.some.inj hread
    have hmem : v ∈ n.listed := by
      rw [h.listed, List.mem_filter]
      exact ⟨List.mem_of_getElem? hv, by simpa using hold⟩
    have hname : n.listed[n.listed.idxOf v]? = some v := List.getElem?_idxOf hmem
    change (n'.listed.map Var.name)[j]? = (n.listed.map Var.name)[n.listed.idxOf v]?
    rw [List.getElem?_map, List.getElem?_map, hv, hname]

end Omits

section Terms

variable (ht : t.isAnonymousFree) (hmem : ∀ v ∈ t.namedVars, v ∈ n'.listed)

include ht hmem

/-- The variables of a term with slots have those slots. -/
theorem fits_numbered : (n'.numbered t).Fits (reading news n' n) := by
  refine ⟨fun w hw => ?_, Term.recount_recount _⟩
  rw [numbered, Term.leaves_recount] at hw
  obtain ⟨v, hleaf, rfl⟩ := Term.exists_of_mem_leaves_mapVars hw
  have hv := Term.isAnonymous_of_mem_leaves ht hleaf
  rw [place_named hv]
  refine ⟨hv, _, ?_, rfl⟩
  rw [length_reading]
  exact List.idxOf_lt_length_of_mem (hmem v (Term.mem_namedVars.2 ⟨hleaf, hv⟩))

/-- A term with new variables is read as the one without. -/
theorem readBy_numbered : (n'.numbered t).readBy (reading news n' n) =
    n.numbered (t.renamed (Var.blanked news)) := by
  rw [numbered, Term.readBy, Term.recount_mapVars_recount, Term.mapVars_mapVars, numbered,
    Term.renamed, Term.mapVars_mapVars]
  refine congrArg Term.recount (Term.mapVars_congr fun v hv => ?_)
  have hnamed := Term.isAnonymous_of_mem_leaves ht hv
  exact readBy_place (hmem v (Term.mem_namedVars.2 ⟨hv, hnamed⟩)) hnamed

omit ht in
/-- The gaps are the slots of the new variables in the term. -/
theorem gaps_numbered : (n'.numbered t).gaps (reading news n' n) =
    (t.namedVars.filter (·.name ∈ news)).map n'.listed.idxOf := by
  rw [Term.gaps, slots_numbered, List.filter_map]
  congr 1
  refine List.filter_congr fun v hv => ?_
  rw [Function.comp_apply, decide_eq_decide]
  exact isGap_reading (hmem v hv)

end Terms

end Numbering

namespace Fills

variable {news : List String} {ts ts' : List Term}

/-- Numbering leaves the new variables out where they do not stand. -/
theorem omits (h : Fills news ts ts') :
    Numbering.Omits news (Numbering.empty.after (ts'.flatMap Term.namedVars))
      (Numbering.empty.after (ts.flatMap Term.namedVars)) := by
  have hvars : ts.flatMap Term.namedVars =
      (ts'.flatMap Term.namedVars).filter (·.name ∉ news) := by
    rw [← h.blanked, List.flatMap_map, List.filter_flatMap]
    exact List.flatMap_congr fun t ht => Term.namedVars_blanked (h.free t ht)
  refine ⟨?_, Numbering.nodup_after (n := .empty) List.nodup_nil _, fun v hv => ?_⟩
  · rw [hvars]
    exact Numbering.filter_after rfl _
  · rcases Numbering.mem_after.1 hv with hmem | hmem
    · cases hmem
    · obtain ⟨t, _, hv⟩ := List.mem_flatMap.1 hmem
      exact (Term.mem_namedVars.1 hv).2

/-- Numbered terms with new variables are read as those without. -/
theorem turns (h : Fills news ts ts') :
    ∃ q : Reading, q.Turns (Numbering.empty.after (ts'.flatMap Term.namedVars)).slotNames
      (Numbering.empty.after (ts.flatMap Term.namedVars)).slotNames
      (ts'.map (Numbering.empty.after (ts'.flatMap Term.namedVars)).numbered)
      (ts.map (Numbering.empty.after (ts.flatMap Term.namedVars)).numbered) := by
  have homits := h.omits
  have hmem : ∀ t ∈ ts', ∀ v ∈ t.namedVars,
      v ∈ (Numbering.empty.after (ts'.flatMap Term.namedVars)).listed := fun t ht v hv =>
    Numbering.mem_after.2 (Or.inr (List.mem_flatMap.2 ⟨t, ht, hv⟩))
  have honce := h.once
  generalize Numbering.empty.after (ts'.flatMap Term.namedVars) = n' at homits hmem ⊢
  generalize Numbering.empty.after (ts.flatMap Term.namedVars) = n at homits ⊢
  refine ⟨Numbering.reading news n' n, ?_, ?_, ?_, homits.names, ?_, ?_, ?_⟩
  · have hlength : n.slotNames.length = n.listed.length := List.length_map _
    rw [hlength]
    exact homits.covers
  · rw [Numbering.length_reading]
    exact (List.length_map _).symm
  · intro name hname
    obtain ⟨v, hv, rfl⟩ := List.mem_map.1 hname
    simpa [Var.isAnonymous] using homits.named v hv
  · exact List.forall_mem_map.2 fun t ht => Numbering.fits_numbered (h.free t ht) (hmem t ht)
  · rw [← h.blanked, List.map_map, List.map_map]
    exact List.map_congr_left fun t ht => Numbering.readBy_numbered (h.free t ht) (hmem t ht)
  · have hgaps : (ts'.map n'.numbered).flatMap (Term.gaps (Numbering.reading news n' n)) =
        ((ts'.flatMap Term.namedVars).filter (·.name ∈ news)).map n'.listed.idxOf := by
      rw [List.flatMap_map, List.filter_flatMap, List.map_flatMap]
      exact List.flatMap_congr fun t ht => Numbering.gaps_numbered (hmem t ht)
    rw [hgaps]
    refine List.Nodup.map_on (fun v hv w _ heq => ?_) (List.Nodup.of_map _ honce)
    obtain ⟨t, ht, hv⟩ := List.mem_flatMap.1 (List.mem_of_mem_filter hv)
    exact (List.idxOf_inj (hmem t ht v hv)).1 heq

/-- A normalized goal with new variables is read as the one without. -/
theorem normalize {goal goal' : Term} (h : Fills news [goal] [goal']) :
    ∃ q : Reading, q.Turns (goal'.normalize.vars.map Var.name) (goal.normalize.vars.map Var.name)
      [goal'.normalize.term] [goal.normalize.term] := by
  obtain ⟨q, hq⟩ := h.turns
  have hnormalize : ∀ t : Term, t.normalize.term =
        (Numbering.empty.after ([t].flatMap Term.namedVars)).numbered t ∧
      t.normalize.vars.map Var.name =
        (Numbering.empty.after ([t].flatMap Term.namedVars)).slotNames := fun t => by
    rw [List.flatMap_singleton, ← Numbering.number_snd, Term.normalize]
    refine ⟨Numbering.number_eq t ?_, Numbering.map_name_vars _⟩
    rw [Numbering.number_snd]
  rw [(hnormalize goal).1, (hnormalize goal).2, (hnormalize goal').1, (hnormalize goal').2]
  exact ⟨q, hq⟩

end Fills

/-- A head is read as a head in whichever form it is kept. -/
theorem Reading.Turns.callable {q : Reading} {names' names : List String}
    {head' body' head body : Term} {parts' parts : Compound}
    (h : q.Turns names' names [head', body'] [head, body])
    (hparts' : head'.callable? = some parts') (hparts : head.callable? = some parts) :
    q.Turns names' names [parts'.toTerm, body'] [parts.toTerm, body] := by
  have hread : head'.readBy q = head := (List.cons.inj h.read).1
  cases head' with
  | number | var => cases hparts'
  | compound functor args varCount =>
    rw [← hread, Term.readBy_compound] at hparts
    obtain rfl := Option.some.inj hparts'
    obtain rfl := Option.some.inj hparts
    rw [← hread, Term.readBy_compound] at h
    exact h
  | atom name =>
    rw [← hread, Term.readBy_atom] at hparts
    obtain rfl := Option.some.inj hparts'
    obtain rfl := Option.some.inj hparts
    rw [← hread, Term.readBy_atom] at h
    obtain ⟨hcovers, hlength, hnamed, hnames, hfits, hreads, hnodup⟩ := h
    refine ⟨hcovers, hlength, hnamed, hnames, ?_, ?_, hnodup⟩
    · refine List.forall_mem_cons.2 ⟨⟨?_, rfl⟩, (List.forall_mem_cons.1 hfits).2⟩
      simp [Compound.toTerm]
    · exact congrArg (Compound.toTerm ⟨name, [], 0⟩ :: ·) (List.cons.inj hreads).2

namespace Clause

variable {clause clause' : Clause}

/-- The second clause is made of the terms of the first, with a new variable for each occurrence of
the anonymous one. Copies of one clause become copies of one clause. -/
def Fills (clause clause' : Clause) : Prop :=
  ∃ text news head body head' body', ClauseResolution.Fills news [head, body] [head', body'] ∧
    rule text head body = .ok clause ∧ rule text head' body' = .ok clause'

/-- The terms of the second clause are read as those of the first, in the same text. -/
structure ReadAs (q : Reading) (clause clause' : Clause) : Prop extends
    q.Turns clause'.varNames clause.varNames [clause'.head.toTerm, clause'.body]
      [clause.head.toTerm, clause.body] where
  /-- Both are written in one text. -/
  text : clause'.text = clause.text

/-- A clause is made of its terms with the slots of all variables. -/
theorem numbered_of_rule {text : Nat} {head body : Term} (h : rule text head body = .ok clause) :
    ((Numbering.empty.after ([head, body].flatMap Term.namedVars)).numbered head).callable? =
        some clause.head ∧
      (Numbering.empty.after ([head, body].flatMap Term.namedVars)).numbered body = clause.body ∧
      (Numbering.empty.after ([head, body].flatMap Term.namedVars)).slotNames =
        clause.varNames := by
  obtain ⟨hhead, hbody, hnames⟩ := eq_of_rule h
  have hvars : Numbering.empty.after ([head, body].flatMap Term.namedVars) =
      (Numbering.empty.after head.namedVars).after body.namedVars := by
    rw [← Numbering.after_append]
    simp
  rw [Numbering.number_snd] at hbody hnames
  rw [Numbering.number_snd, Numbering.map_name_vars] at hnames
  rw [Numbering.number_eq head (Numbering.prefix_after _ body.namedVars)] at hhead
  rw [Numbering.number_eq body List.prefix_rfl] at hbody
  rw [hvars]
  exact ⟨hhead, hbody, hnames⟩

/-- A clause with new variables is read as the one without. -/
theorem Fills.exists_readAs (h : clause.Fills clause') : ∃ q, ReadAs q clause clause' := by
  obtain ⟨text, news, head, body, head', body', hfills, hrule, hrule'⟩ := h
  obtain ⟨q, hq⟩ := hfills.turns
  obtain ⟨hhead, hbody, hnames⟩ := numbered_of_rule hrule
  obtain ⟨hhead', hbody', hnames'⟩ := numbered_of_rule hrule'
  rw [hnames, hnames'] at hq
  have hterms := Reading.Turns.callable hq hhead' hhead
  rw [hbody, hbody'] at hterms
  exact ⟨q, hterms, (text_of_rule hrule').trans (text_of_rule hrule).symm⟩

end Clause

end ClauseResolution
