import ClauseResolution.Engine.Solve
import ClauseResolution.Proofs.Clause.Normalization
import ClauseResolution.Proofs.Json.Storage
import ClauseResolution.Proofs.Term.Words

/-!
# The keys of answers

An answer lists the values of the query variables under their names. A variable whose name is taken
gets a key that is made up of its name and its slot, and a variable may bear such a name itself. Its
value is then lost or stands under the key of another variable, unless no query variable has a name
that is made up for another one: exactly then every answer keeps all values.
-/

namespace ClauseResolution

namespace Answer

variable {names pre : List String} {key name : String} {pairs : List (String × Term)}

/-- The key that is made up for a variable whose name is taken. -/
def suffixed (name : String) (slot : Nat) : String := name ++ "#" ++ toString slot

/-- The slot can be read off a key that is made up. -/
theorem slot_eq_of_suffixed_eq {name name' : String} {i j : Nat}
    (h : suffixed name i = suffixed name' j) : i = j := by
  have hmark : ∀ slot : Nat, '#' ∉ (toString slot).toList := fun _ hc =>
    absurd (isDigit_of_mem_toString hc) (by decide)
  exact Nat.repr_inj.1 (append_mark_inj (c := '#') rfl (hmark i) (hmark j) h).2

/-- A key that is made up differs from the name it is made of. -/
theorem suffixed_ne (name : String) (slot : Nat) : suffixed name slot ≠ name := by
  intro h
  have hlength := congrArg String.length h
  have hmark : "#".length = 1 := by decide
  simp only [suffixed, String.length_append] at hlength
  omega

/-- The keys of variables with the given names, one after another. -/
def keyed (names : List String) : List String :=
  names.foldl
    (fun keys name => keys ++ [if name ∈ keys then suffixed name keys.length else name]) []

/-- There is a key for every name. -/
@[simp] theorem length_keyed (names : List String) : (keyed names).length = names.length := by
  induction names using List.reverseRecOn with
  | nil => rfl
  | append_singleton names name ih =>
    rw [keyed, List.foldl_append, ← keyed]
    simp [ih]

/-- A further variable has its name as key, or a key that is made up. -/
theorem keyed_append_singleton (names : List String) (name : String) :
    keyed (names ++ [name]) =
      keyed names ++ [if name ∈ keyed names then suffixed name names.length else name] := by
  rw [keyed, List.foldl_append, ← keyed, List.foldl_cons, List.foldl_nil, length_keyed]

/-- The key at a place depends on the names before it. -/
theorem getElem?_keyed (names : List String) (i : Nat) :
    (keyed names)[i]? = names[i]?.map fun name =>
      if name ∈ keyed (names.take i) then suffixed name i else name := by
  induction names using List.reverseRecOn with
  | nil => simp [keyed]
  | append_singleton names name ih =>
    rw [keyed_append_singleton]
    rcases Nat.lt_trichotomy i names.length with hlt | rfl | hgt
    · rw [List.getElem?_append_left (by rwa [length_keyed]), List.getElem?_append_left hlt, ih,
        List.take_append_of_le_length (Nat.le_of_lt hlt)]
    · rw [← length_keyed names, List.getElem?_concat_length, length_keyed]
      simp
    · rw [List.getElem?_eq_none (by simp; omega), List.getElem?_eq_none (by simp; omega)]
      rfl

/-- Every name is a key. -/
theorem mem_keyed_of_mem (h : name ∈ names) : name ∈ keyed names := by
  induction names using List.reverseRecOn with
  | nil => cases h
  | append_singleton names last ih =>
    rw [keyed_append_singleton, List.mem_append]
    rcases List.mem_append.1 h with h | h
    · exact Or.inl (ih h)
    · rw [List.mem_singleton.1 h]
      by_cases hlast : last ∈ keyed names <;> simp [hlast]

/-- No name is a key that is made up for a variable whose name occurred before. -/
def KeysApart (names : List String) : Prop :=
  ∀ i name, names[i]? = some name → name ∈ names.take i → suffixed name i ∉ names

/-- What holds of the keys of the first variables when keys and names are kept apart. -/
structure Distinguishes (names pre : List String) : Prop where
  /-- The names that are keys are those that occurred. -/
  mem_iff : ∀ name ∈ names, name ∈ keyed pre ↔ name ∈ pre
  /-- No key stands twice. -/
  nodup : (keyed pre).Nodup
  /-- A key is a name, or made up with a slot in use. -/
  origin : ∀ key ∈ keyed pre, key ∈ names ∨ ∃ i < pre.length, ∃ name, key = suffixed name i

/-- The next key is new, and it is no other name. -/
theorem Distinguishes.exists_key (h : Distinguishes names pre) (hapart : KeysApart names)
    (hfirst : pre ++ [name] <+: names) : ∃ key, keyed (pre ++ [name]) = keyed pre ++ [key] ∧
      (∀ other ∈ names, other ∈ pre ∨ other = key ↔ other ∈ pre ∨ other = name) ∧
      key ∉ keyed pre ∧ (key ∈ names ∨ ∃ i < pre.length + 1, ∃ name, key = suffixed name i) := by
  obtain ⟨rest, hrest⟩ := hfirst
  have hname : name ∈ names := by simp [← hrest]
  by_cases htaken : name ∈ keyed pre
  · have hpre : name ∈ pre := (h.mem_iff name hname).1 htaken
    have hmade : suffixed name pre.length ∉ names := by
      refine hapart pre.length name ?_ ?_ <;> simp [← hrest, hpre]
    refine ⟨suffixed name pre.length, by rw [keyed_append_singleton, if_pos htaken],
      fun other hother => ?_, fun hkey => ?_, Or.inr ⟨pre.length, by omega, name, rfl⟩⟩
    · have hne : other ≠ suffixed name pre.length := fun heq => hmade (heq ▸ hother)
      have hback : other = name → other ∈ pre := fun heq => heq ▸ hpre
      tauto
    · rcases h.origin _ hkey with hnames | ⟨i, hi, other, hother⟩
      · exact hmade hnames
      · have hslot := slot_eq_of_suffixed_eq hother
        omega
  · exact ⟨name, by rw [keyed_append_singleton, if_neg htaken], fun _ _ => Iff.rfl, htaken,
      Or.inl hname⟩

/-- The next variable keeps what holds of the keys. -/
theorem Distinguishes.append_singleton (h : Distinguishes names pre) (hapart : KeysApart names)
    (hfirst : pre ++ [name] <+: names) : Distinguishes names (pre ++ [name]) := by
  obtain ⟨key, hkeys, hmem, hnew, horigin⟩ := h.exists_key hapart hfirst
  refine ⟨fun other hother => ?_, ?_, fun other hother => ?_⟩
  · rw [hkeys, List.mem_append, List.mem_singleton, h.mem_iff other hother, hmem other hother,
      List.mem_append, List.mem_singleton]
  · rw [hkeys, ← List.concat_eq_append]
    exact h.nodup.concat hnew
  · rw [hkeys, List.mem_append, List.mem_singleton] at hother
    rw [List.length_append, List.length_singleton]
    rcases hother with hother | rfl
    · exact (h.origin other hother).imp_right fun ⟨i, hi, made⟩ => ⟨i, by omega, made⟩
    · exact horigin

/-- Where keys and names are kept apart, the keys are distinct and no name is a key before the
variable that bears it. -/
theorem KeysApart.distinguishes (h : KeysApart names) (hfirst : pre <+: names) :
    Distinguishes names pre := by
  induction pre using List.reverseRecOn with
  | nil => exact ⟨by simp [keyed], List.nodup_nil, by simp [keyed]⟩
  | append_singleton pre name ih =>
    exact (ih ((List.prefix_append pre [name]).trans hfirst)).append_singleton h hfirst

/-- The first variable with a name has it as key. -/
theorem KeysApart.keyed_idxOf (h : KeysApart names) (hname : name ∈ names) :
    (keyed names)[names.idxOf name]? = some name := by
  have hfirst : name ∉ names.take (names.idxOf name) := by
    intro hmem
    have hidx : (names.take (names.idxOf name) ++ names.drop (names.idxOf name)).idxOf name =
        (names.take (names.idxOf name)).idxOf name := List.idxOf_append_of_mem hmem
    rw [List.take_append_drop] at hidx
    have hlt := List.idxOf_lt_length_of_mem hmem
    rw [← hidx, List.length_take] at hlt
    omega
  have hfree : name ∉ keyed (names.take (names.idxOf name)) := fun hmem =>
    hfirst (((h.distinguishes (List.take_prefix ..)).mem_iff name hname).1 hmem)
  rw [getElem?_keyed, List.getElem?_idxOf hname, Option.map_some, if_neg hfree]

/-- The keys of an answer, in order. -/
def keys (answer : Answer) : List String := answer.bindings.map Prod.fst

/-- A value stands under a key exactly when the key is one of the answer. -/
theorem isSome_get? {answer : Answer} : (answer.get? key).isSome ↔ key ∈ answer.keys := by
  obtain ⟨bindings⟩ := answer
  rw [get?, keys]
  induction bindings with
  | nil => simp
  | cons binding bindings ih =>
    obtain ⟨other, value⟩ := binding
    rw [List.lookup_cons, List.map_cons, List.mem_cons]
    cases heq : key == other <;> simp_all

/-- A key that is present keeps its place, and a new one comes last. -/
theorem map_fst_insertInto (key : String) (value : Term) (bindings : List (String × Term)) :
    (insertInto key value bindings).map Prod.fst =
      if key ∈ bindings.map Prod.fst then bindings.map Prod.fst
      else bindings.map Prod.fst ++ [key] := by
  induction bindings with
  | nil => rfl
  | cons binding bindings ih =>
    obtain ⟨other, old⟩ := binding
    rw [insertInto]
    by_cases heq : other = key
    · simp [heq]
    · have hne : key ≠ other := fun h => heq h.symm
      rw [if_neg heq, List.map_cons, ih, List.map_cons]
      by_cases hmem : key ∈ bindings.map Prod.fst <;> simp [hmem, hne]

/-- Inserting a value adds its key at the end unless it is there. -/
theorem keys_insert (answer : Answer) (key : String) (value : Term) :
    (answer.insert key value).keys =
      if key ∈ answer.keys then answer.keys else answer.keys ++ [key] :=
  map_fst_insertInto key value answer.bindings

/-- The answer in which values are written under their keys one after another. -/
def ofPairs (pairs : List (String × Term)) : Answer :=
  pairs.foldl (fun answer pair => answer.insert pair.1 pair.2) .empty

/-- The last pair is inserted after the others. -/
theorem ofPairs_append_singleton (pairs : List (String × Term)) (pair : String × Term) :
    ofPairs (pairs ++ [pair]) = (ofPairs pairs).insert pair.1 pair.2 := by
  rw [ofPairs, List.foldl_append]
  rfl

/-- The keys of an answer are those of the pairs it is made from. -/
theorem mem_keys_ofPairs : key ∈ (ofPairs pairs).keys ↔ key ∈ pairs.map Prod.fst := by
  induction pairs using List.reverseRecOn with
  | nil => simp [ofPairs, empty, keys]
  | append_singleton pairs pair ih =>
    rw [ofPairs_append_singleton, keys_insert, List.map_append, List.mem_append, ← ih]
    split <;> grind

/-- No key of an answer is listed twice. -/
theorem nodup_keys_ofPairs (pairs : List (String × Term)) : (ofPairs pairs).keys.Nodup := by
  induction pairs using List.reverseRecOn with
  | nil => exact List.nodup_nil
  | append_singleton pairs pair ih =>
    rw [ofPairs_append_singleton, keys_insert]
    split
    · exact ih
    · next hkey => exact List.nodup_append.2 ⟨ih, List.nodup_singleton _, by grind⟩

/-- Under distinct keys the values are kept in their order. -/
theorem bindings_ofPairs (h : (pairs.map Prod.fst).Nodup) : (ofPairs pairs).bindings = pairs := by
  induction pairs using List.reverseRecOn with
  | nil => rfl
  | append_singleton pairs pair ih =>
    rw [List.map_append] at h
    obtain ⟨hpairs, _, hnew⟩ := List.nodup_append.1 h
    have hkey : pair.1 ∉ (ofPairs pairs).bindings.map Prod.fst := fun hmem =>
      hnew pair.1 (mem_keys_ofPairs.1 hmem) pair.1 (by simp) rfl
    rw [ofPairs_append_singleton, insert, insertInto_of_not_mem hkey, ih hpairs]

/-- Where a key stands twice, a value is lost. -/
theorem nodup_of_length_ofPairs (h : (ofPairs pairs).bindings.length = pairs.length) :
    (pairs.map Prod.fst).Nodup := by
  have hperm : (ofPairs pairs).keys.Perm (pairs.map Prod.fst).dedup := by
    refine (List.perm_ext_iff_of_nodup (nodup_keys_ofPairs pairs) (List.nodup_dedup _)).2 ?_
    exact fun key => mem_keys_ofPairs.trans List.mem_dedup.symm
  have hlength : (pairs.map Prod.fst).dedup.length = (pairs.map Prod.fst).length := by
    rw [← hperm.length_eq, keys, List.length_map, List.length_map, h]
  rw [← (List.dedup_sublist _).eq_of_length hlength]
  exact List.nodup_dedup _

/-- Under distinct keys a value stands under the key at its place. -/
theorem lookup_zip {keys : List String} {values : List Term} (h : keys.Nodup) {i : Nat}
    (hkey : keys[i]? = some key) : (keys.zip values).lookup key = values[i]? := by
  induction keys generalizing values i with
  | nil => cases hkey
  | cons first keys ih =>
    obtain ⟨hfirst, hrest⟩ := List.nodup_cons.1 h
    cases values with
    | nil => simp
    | cons value values =>
      rw [List.zip_cons_cons, List.lookup_cons]
      cases i with
      | zero =>
        cases hkey
        simp
      | succ i =>
        rw [List.getElem?_cons_succ] at hkey ⊢
        have hne : key ≠ first := fun heq => hfirst (heq ▸ List.mem_of_getElem? hkey)
        rw [beq_false_of_ne hne]
        exact ih hrest hkey

end Answer

namespace Solution

open Answer

variable {s : Solution} {values : List Term}

/-- The values of further variables are written under their keys. -/
theorem answerFrom_eq {pre vars : List Var} {done : List Term} (hdone : done.length = pre.length)
    (hvalues : vars.map (fun v => s.reify (.var v)) = values.map some) :
    s.answerFrom (ofPairs ((keyed (pre.map Var.name)).zip done)) pre.length vars =
      some (ofPairs ((keyed ((pre ++ vars).map Var.name)).zip (done ++ values))) := by
  induction vars generalizing pre done values with
  | nil =>
    obtain rfl : values = [] := by simpa using hvalues.symm
    simp [answerFrom]
  | cons v vars ih =>
    cases values with
    | nil => cases hvalues
    | cons value values =>
      obtain ⟨hvalue, hrest⟩ : s.reify (.var v) = some value ∧
          vars.map (fun v => s.reify (.var v)) = values.map some := List.cons.inj hvalues
      have htaken : ((ofPairs ((keyed (pre.map Var.name)).zip done)).get? v.name).isSome ↔
          v.name ∈ keyed (pre.map Var.name) := by
        rw [isSome_get?, mem_keys_ofPairs, List.map_fst_zip (by simp [hdone])]
      have hinsert : (ofPairs ((keyed (pre.map Var.name)).zip done)).insert
          ((ofPairs ((keyed (pre.map Var.name)).zip done)).keyFor v.name pre.length) value =
          ofPairs ((keyed ((pre ++ [v]).map Var.name)).zip (done ++ [value])) := by
        rw [List.map_append, List.map_singleton, keyed_append_singleton,
          List.zip_append (by simp [hdone]), List.zip_cons_cons, List.zip_nil_right,
          ofPairs_append_singleton, keyFor, List.length_map]
        simp only [htaken, suffixed]
      have hlength : (done ++ [value]).length = (pre ++ [v]).length := by simp [hdone]
      have hnext := ih hlength hrest
      rw [List.length_append, List.length_singleton, List.append_assoc, List.append_assoc] at hnext
      rw [answerFrom, hvalue]
      exact (congrArg (fun answer => s.answerFrom answer (pre.length + 1) vars) hinsert).trans hnext

/-- The values of the query variables are written under their keys. -/
theorem answer?_eq (hvalues : s.vars.map (fun v => s.reify (.var v)) = values.map some) :
    s.answer? = some (ofPairs ((keyed (s.vars.map Var.name)).zip values)) := by
  have hempty : ([] : List Term).length = ([] : List Var).length := rfl
  have hall := answerFrom_eq hempty hvalues
  rwa [List.nil_append, List.nil_append] at hall

/-- The first variable with a name is the one at the first place of the name. -/
theorem find?_name (vars : List Var) (name : String) :
    vars.find? (fun v => v.name == name) = vars[(vars.map Var.name).idxOf name]? := by
  induction vars with
  | nil => rfl
  | cons v vars ih =>
    rw [List.find?_cons, List.map_cons, List.idxOf_cons]
    cases heq : v.name == name with
    | true => simp
    | false => simpa using ih

/-- The value at the first place of a name is found under the name. -/
theorem get?_eq (hvalues : s.vars.map (fun v => s.reify (.var v)) = values.map some)
    (name : String) : s.get? name = values[(s.vars.map Var.name).idxOf name]? := by
  have hplace := congrArg (·[(s.vars.map Var.name).idxOf name]?) hvalues
  simp only [List.getElem?_map] at hplace
  rw [get?, find?_name]
  cases hvar : s.vars[(s.vars.map Var.name).idxOf name]? <;>
    cases hvalue : values[(s.vars.map Var.name).idxOf name]? <;> simp_all

/-- The solution that binds nothing. -/
def free (vars : List Var) : Solution := ⟨.empty, .empty, vars⟩

/-- A solution without bindings has the given variables. -/
@[simp] theorem vars_free (vars : List Var) : (free vars).vars = vars := rfl

/-- A variable without a binding stands for itself. -/
@[simp] theorem reify_free (vars : List Var) (v : Var) :
    (free vars).reify (.var v) = some (.var v) := by
  cases hv : v.index <;>
    simp [free, reify, Store.reify, Store.slotOrder, Store.lookup, Store.valueAt, Store.lookupFrom,
      Context.empty, Store.tableOf, Term.substitute, Term.fold_eq_visit, Term.Visitor.visit, hv]

/-- Every value is kept in its order, and found under each name as the value of the first variable
with that name, where no name is made up for another variable. -/
theorem answer?_of_keysApart (h : KeysApart (s.vars.map Var.name))
    (hvalues : s.vars.map (fun v => s.reify (.var v)) = values.map some) :
    ∃ answer, s.answer? = some answer ∧ answer.bindings.map Prod.snd = values ∧
      ∀ v ∈ s.vars, answer.get? v.name = s.get? v.name := by
  have hlength : values.length = (keyed (s.vars.map Var.name)).length := by
    simpa using (congrArg List.length hvalues).symm
  have hnodup := (h.distinguishes List.prefix_rfl).nodup
  have hbindings : (ofPairs ((keyed (s.vars.map Var.name)).zip values)).bindings =
      (keyed (s.vars.map Var.name)).zip values :=
    bindings_ofPairs (by rwa [List.map_fst_zip (Nat.le_of_eq hlength.symm)])
  refine ⟨_, answer?_eq hvalues, ?_, fun v hv => ?_⟩
  · rw [hbindings, List.map_snd_zip (Nat.le_of_eq hlength)]
  · rw [Answer.get?, hbindings, get?_eq hvalues]
    exact lookup_zip hnodup (h.keyed_idxOf (List.mem_map_of_mem hv))

/-- Where a solution that binds nothing keeps all values, no name is made up for another
variable. -/
theorem keysApart_of_free {vars : List Var} (hvars : vars.Nodup) {answer : Answer}
    (hanswer : (free vars).answer? = some answer)
    (hkept : answer.bindings.map Prod.snd = vars.map .var)
    (hget : ∀ v ∈ vars, answer.get? v.name = (free vars).get? v.name) :
    KeysApart (vars.map Var.name) := by
  have hvalues : (free vars).vars.map (fun v => (free vars).reify (.var v)) =
      (vars.map Term.var).map some := by
    simp
  have hall := answer?_eq hvalues
  rw [hanswer, Option.some_inj, vars_free] at hall
  have hlength : (vars.map Term.var).length = (keyed (vars.map Var.name)).length := by simp
  have hpairs : ((keyed (vars.map Var.name)).zip (vars.map Term.var)).length =
      answer.bindings.length := by
    simpa using (congrArg List.length hkept).symm
  have hnodup : (keyed (vars.map Var.name)).Nodup := by
    have hfst := nodup_of_length_ofPairs (by rw [hpairs, hall])
    rwa [List.map_fst_zip (Nat.le_of_eq hlength.symm)] at hfst
  have hbindings : answer.bindings = (keyed (vars.map Var.name)).zip (vars.map Term.var) := by
    rw [hall]
    exact bindings_ofPairs (by rwa [List.map_fst_zip (Nat.le_of_eq hlength.symm)])
  intro i name hname htaken hmade
  have hkey : (keyed (vars.map Var.name))[i]? = some (suffixed name i) := by
    rw [getElem?_keyed, hname, Option.map_some, if_pos (mem_keyed_of_mem htaken)]
  obtain ⟨v, hv, hvname⟩ := List.mem_map.1 hmade
  -- The variable that bears the key and the one it was made up for would have one value.
  have hvalue := hget v hv
  rw [hvname, Answer.get?, hbindings, lookup_zip hnodup hkey, get?_eq hvalues] at hvalue
  have hlt : i < (vars.map Term.var).length := by
    have hbound := (List.getElem?_eq_some_iff.1 hname).1
    simpa using hbound
  have hplace : i = (vars.map Var.name).idxOf (suffixed name i) :=
    (List.getElem?_inj hlt (hvars.map fun _ _ heq => Term.var.inj heq)).1 hvalue
  have hborne := List.getElem?_idxOf hmade
  rw [← hplace, hname] at hborne
  exact suffixed_ne name i (Option.some.inj hborne).symm

end Solution

/-- The variables that come with a normalized term are distinct. -/
theorem Term.nodup_vars_normalize (t : Term) : t.normalize.vars.Nodup := by
  rw [normalize_eq, Numbering.vars_eq_map_place t.nodup_numbering t.named_numbering]
  exact t.nodup_numbering.map_on fun v hv w hw heq =>
    Numbering.injOn_place t.named_numbering hv hw heq

/-- The answers of a goal keep the values of all query variables, in slot order, and find the same
value under the name of a query variable as the solution, for all solutions with these variables,
exactly when no query variable has a name that is made up as the key of another one. -/
theorem Solution.answers_keep_iff (goal : Term) :
    (∀ (s : Solution) (values : List Term), s.vars = goal.normalize.vars →
      s.vars.map (fun v => s.reify (.var v)) = values.map some →
      ∃ answer, s.answer? = some answer ∧ answer.bindings.map Prod.snd = values ∧
        ∀ v ∈ s.vars, answer.get? v.name = s.get? v.name) ↔
      Answer.KeysApart (goal.normalize.vars.map Var.name) := by
  constructor
  · intro hkeep
    obtain ⟨answer, hanswer, hkept, hget⟩ := hkeep (free goal.normalize.vars)
      (goal.normalize.vars.map .var) rfl (by simp)
    exact keysApart_of_free goal.nodup_vars_normalize hanswer hkept hget
  · intro hapart s values hvars hvalues
    exact answer?_of_keysApart (hvars ▸ hapart) hvalues

/-- The three variables `X`, `X#2` and another `X` get two keys, and the value `b` is lost. -/
theorem Engine.query_loses_value :
    let x : Term := .var ⟨"X", none⟩
    let x' : Term := .var ⟨"X", some 5⟩
    let y : Term := .var ⟨"X#2", none⟩
    let goal : Term := .conjunction [.apply "=" [x, .atom "a"], .apply "=" [y, .atom "b"],
      .apply "=" [x', .atom "c"]]
    goal.normalize.vars.length = 3 ∧
      ((Engine.ofConfig {}).query 20 goal).1 = .all [⟨[("X", .atom "a"), ("X#2", .atom "c")]⟩] := by
  intro x x' y goal
  constructor
  · with_unfolding_all rfl
  · cbv

end ClauseResolution
