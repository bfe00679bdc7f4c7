import ClauseResolution.Engine.Solution
import ClauseResolution.Proofs.Json.RoundTrip
import ClauseResolution.Search.Config
import ClauseResolution.Term.Leaves

/-!
# Terms, answers and configurations are read back

A number is read from the digits it is written in as long as it fits into a machine word.
The records of variables, compound terms, answers and configurations are read field by
field, so that whatever has no floating-point number in it is read back from its text with
all its names, slots, counts and the order of its bindings.
-/

namespace ClauseResolution

namespace Numeral

/-- Digits that form a number below the bound are taken to the last one. -/
theorem leading_eq {value : Nat} {ds : List Char} (h : Nat.ofDigitChars 10 ds value < wordBound) :
    leading value ds = (Nat.ofDigitChars 10 ds value, 0) := by
  induction ds generalizing value with
  | nil => rfl
  | cons d ds ih =>
    rw [Nat.ofDigitChars_cons] at h ⊢
    have hnext : 10 * value + digitValue d < wordBound := by
      refine Nat.lt_of_le_of_lt ?_ h
      rw [Nat.ofDigitChars_eq_ofDigitChars_zero]
      have hpow : 0 < 10 ^ ds.length := Nat.pow_pos (by decide)
      exact Nat.le_trans (Nat.le_mul_of_pos_left _ hpow) (Nat.le_add_right _ _)
    rw [leading, if_pos hnext]
    exact ih h

/-- The digits of a number are taken as that number. -/
theorem leading_toDigits {n : Nat} (h : n < wordBound) :
    leading 0 (Nat.toDigits 10 n) = (n, 0) := by
  have hdigits : Nat.ofDigitChars 10 (Nat.toDigits 10 n) 0 = n := Nat.ofDigitChars_ten_toDigits
  rw [leading_eq (by rwa [hdigits]), hdigits]

/-- A natural number of one word is read back. -/
theorem nat?_ofNat {n : Nat} (h : n < wordBound) : (ofNat n).nat? = some n := by
  simp [nat?, int?, ofNat, leading_toDigits h]

/-- An integer of one word is read back. -/
theorem int64?_ofInt (i : Int64) : (ofInt i.toInt).int64? = some i := by
  have hlow := i.le_toInt
  have hhigh := i.toInt_lt
  have hword : wordBound = 2 ^ 64 := rfl
  have hhalf : twoPow 63 = 2 ^ 63 := rfl
  have habs : i.toInt.natAbs < wordBound := by omega
  have hint : (ofInt i.toInt).int? = some i.toInt := by
    simp only [int?, ofInt, leading_toDigits habs, decide_eq_true_eq]
    split
    · rw [if_pos (by omega)]
      congr 1
      omega
    · congr 1
      omega
  rw [int64?, hint, Option.bind_some, if_pos (by rw [hhalf]; exact_mod_cast hhigh),
    Int64.ofInt_toInt]

/-- The first digit of a number of several digits is no zero. -/
theorem toDigits_eq_of_head?_eq_zero {n : Nat} (h : (Nat.toDigits 10 n).head? = some '0') :
    Nat.toDigits 10 n = ['0'] := by
  induction n using Nat.strongRecOn with
  | ind n ih =>
    by_cases hlt : n < 10
    · rw [Nat.toDigits_of_lt_base hlt] at h ⊢
      rw [Option.some.inj h]
    · rw [Nat.toDigits_of_base_le (by decide) (by omega)] at h
      have hfirst : (Nat.toDigits 10 (n / 10)).head? = some '0' := by
        rwa [List.head?_append_of_ne_nil _ Nat.toDigits_ne_nil] at h
      -- The digits before the last one would be a single zero.
      have hzero := ih (n / 10) (by omega) hfirst
      have hvalue : Nat.ofDigitChars 10 (Nat.toDigits 10 (n / 10)) 0 = n / 10 :=
        Nat.ofDigitChars_ten_toDigits
      rw [hzero] at hvalue
      have : n / 10 = 0 := hvalue.symm
      omega

/-- The digits of a number are well spelled. -/
theorem wellSpelled_toDigits (negative : Bool) (n : Nat) :
    WellSpelled ⟨negative, Nat.toDigits 10 n, [], none⟩ :=
  ⟨fun _ hc => Nat.isDigit_of_mem_toDigits (by decide) (by decide) hc, Nat.toDigits_ne_nil,
    toDigits_eq_of_head?_eq_zero, by simp, by simp⟩

end Numeral

namespace Json

/-- A natural number of one word is read back. -/
theorem nat?_ofNat {n : Nat} (h : n < Numeral.wordBound) : (ofNat n).nat? = some n :=
  Numeral.nat?_ofNat h

/-- A natural number is well spelled. -/
theorem wellSpelled_ofNat (n : Nat) : (ofNat n).WellSpelled :=
  .number (Numeral.wellSpelled_toDigits false n)

/-- An object with keys that are plain texts is well spelled when its values are. -/
theorem wellSpelled_ofMembers {members : List (String × Json)}
    (h : ∀ m ∈ members, m.2.WellSpelled) : (ofMembers members).WellSpelled := by
  refine .object (fun m hm => ?_) fun m hm => ?_
  · obtain ⟨member, _, rfl⟩ := List.mem_map.1 hm
    rfl
  · obtain ⟨member, hmember, rfl⟩ := List.mem_map.1 hm
    exact h member hmember

/-- A number of one word that may be missing is read back. -/
theorem optional?_elim {n : Option Nat} (h : ∀ value ∈ n, value < Numeral.wordBound) :
    (n.elim .null ofNat).optional? nat? = some n := by
  cases n with
  | none => rfl
  | some value =>
    rw [Option.elim_some, ofNat, optional?]
    · exact congrArg (Option.map some) (nat?_ofNat (h value rfl))
    · simp

/-- A limit that may be absent is well spelled. -/
theorem wellSpelled_elim (n : Option Nat) : (n.elim .null ofNat).WellSpelled := by
  cases n with
  | none => exact .null
  | some value => exact wellSpelled_ofNat value

end Json

namespace Term

/-- The term has no floating-point number, and its slots and counts fit into a machine
word. -/
inductive Storable : Term → Prop
  /-- Any name. -/
  | atom (name : String) : Storable (.atom name)
  /-- Any integer. -/
  | int (value : Int64) : Storable (.number (.int value))
  /-- Any name, and any slot of one word. -/
  | var {v : Var} (hindex : ∀ slot ∈ v.index, slot < Numeral.wordBound) : Storable (.var v)
  /-- Any name, arguments and count of one word. -/
  | compound {functor : String} {args : List Term} {varCount : Nat}
      (hargs : ∀ arg ∈ args, Storable arg) (hcount : varCount < Numeral.wordBound) :
      Storable (.compound functor args varCount)

/-- A list of terms is written term by term. -/
theorem toJsons_eq_map (ts : List Term) : toJsons ts = ts.map toJson := by
  induction ts with
  | nil => rfl
  | cons t ts ih => rw [toJsons, ih, List.map_cons]

/-- Terms that are read back one by one are read back from a list. -/
theorem ofJsons?_map {ts : List Term} (h : ∀ t ∈ ts, ofJson? t.toJson = some t) :
    ofJsons? (ts.map toJson) = some ts := by
  induction ts with
  | nil => rfl
  | cons t ts ih =>
    obtain ⟨ht, hts⟩ := List.forall_mem_cons.1 h
    rw [List.map_cons, ofJsons?, ht, ih hts]
    rfl

/-- A term is read back from its JSON value. -/
theorem Storable.ofJson?_toJson {t : Term} (h : t.Storable) : ofJson? t.toJson = some t := by
  induction h with
  | atom name => rfl
  | int value =>
    have hvalue : Number.ofJson? (.ofMembers [("Int", .number (.ofInt value.toInt))]) =
        some (.int value) := by
      simp [Number.ofJson?, Json.ofMembers, Json.variant?, Json.numeral?, Numeral.int64?_ofInt]
    simp [toJson, Number.toJson, Json.ofMembers, ofJson?] at hvalue ⊢
    rw [hvalue]
  | @var v hindex =>
    have hvar : Var.ofJson? v.toJson = some v := by
      simp [Var.ofJson?, Var.toJson, Json.ofMembers, Json.record?, Json.field?, Json.ofString,
        Json.text?, Json.optional?_elim hindex]
    simp [toJson, Json.ofMembers, ofJson?, hvar]
  | @compound functor args varCount _ hcount ih =>
    rw [toJson, toJsons_eq_map]
    simp [Json.ofMembers, ofJson?, compoundOfJson?, Json.record?, Json.field?, Json.ofString,
      Json.text?, argsOfMembers?, argsOfJson?, ofJsons?_map ih, Json.nat?_ofNat hcount]

/-- The JSON value of a term is well spelled. -/
theorem Storable.wellSpelled {t : Term} (h : t.Storable) : t.toJson.WellSpelled := by
  induction h with
  | atom name => exact Json.wellSpelled_ofMembers (by simpa using .string name)
  | int value =>
    have hvalue : (Number.int value).toJson.WellSpelled :=
      Json.wellSpelled_ofMembers (by simpa using .number (Numeral.wellSpelled_toDigits _ _))
    exact Json.wellSpelled_ofMembers (by simpa using hvalue)
  | @var v _ =>
    have hvar : v.toJson.WellSpelled := by
      refine Json.wellSpelled_ofMembers ?_
      simp only [List.forall_mem_cons, List.not_mem_nil, IsEmpty.forall_iff, implies_true, and_true]
      exact ⟨.string v.name, Json.wellSpelled_elim v.index⟩
    exact Json.wellSpelled_ofMembers (by simpa using hvar)
  | @compound functor args varCount _ _ ih =>
    have hargs : (Json.array (toJsons args)).WellSpelled := by
      rw [toJsons_eq_map]
      exact .array (List.forall_mem_map.2 ih)
    refine Json.wellSpelled_ofMembers ?_
    simp only [List.forall_mem_cons, List.not_mem_nil, IsEmpty.forall_iff, implies_true, and_true]
    refine Json.wellSpelled_ofMembers ?_
    simp only [List.forall_mem_cons, List.not_mem_nil, IsEmpty.forall_iff, implies_true, and_true]
    exact ⟨.string functor, hargs, Json.wellSpelled_ofNat varCount⟩

end Term

namespace Answer

/-- The keys are distinct, and the values are terms without a floating-point number. -/
structure Storable (answer : Answer) : Prop where
  /-- No key stands twice. -/
  nodup : (answer.bindings.map Prod.fst).Nodup
  /-- The values. -/
  values : ∀ binding ∈ answer.bindings, binding.2.Storable

/-- A new key is added at the end. -/
theorem insertInto_of_not_mem {key : String} {value : Term} {bindings : List (String × Term)}
    (h : key ∉ bindings.map Prod.fst) :
    insertInto key value bindings = bindings ++ [(key, value)] := by
  induction bindings with
  | nil => rfl
  | cons binding bindings ih =>
    rw [List.map_cons, List.mem_cons, not_or] at h
    rw [insertInto, if_neg (Ne.symm h.1), ih h.2, List.cons_append]

/-- Values under new keys are read in their order. -/
theorem insertMembers?_map {before : Answer} {bindings : List (String × Term)}
    (hnodup : ((before.bindings ++ bindings).map Prod.fst).Nodup)
    (hvalues : ∀ binding ∈ bindings, binding.2.Storable) :
    insertMembers? before (bindings.map fun (key, value) => (some key, value.toJson)) =
      some ⟨before.bindings ++ bindings⟩ := by
  induction bindings generalizing before with
  | nil => rw [List.append_nil, List.map_nil, insertMembers?]
  | cons binding bindings ih =>
    obtain ⟨key, value⟩ := binding
    obtain ⟨hvalue, hvalues⟩ := List.forall_mem_cons.1 hvalues
    have hnew : key ∉ before.bindings.map Prod.fst := by
      rw [List.map_append, List.map_cons] at hnodup
      exact fun hmem => (List.nodup_append.1 hnodup).2.2 key hmem key List.mem_cons_self rfl
    have hinsert : before.insert key value = ⟨before.bindings ++ [(key, value)]⟩ := by
      rw [insert, insertInto_of_not_mem hnew]
    have hrest := @ih ⟨before.bindings ++ [(key, value)]⟩ (by simpa using hnodup) hvalues
    simp only [List.map_cons, insertMembers?, hvalue.ofJson?_toJson, hinsert, Option.bind_eq_bind,
      Option.bind_some, hrest, List.append_assoc, List.cons_append, List.nil_append]

/-- An answer is read back from its JSON value. -/
theorem Storable.ofJson?_toJson {answer : Answer} (h : answer.Storable) :
    ofJson? answer.toJson = some answer := by
  have hmembers := @insertMembers?_map empty answer.bindings h.nodup h.values
  simpa [ofJson?, toJson, Json.ofMembers, Json.record?, Json.field?, empty, Function.comp_def]
    using hmembers

/-- The JSON value of an answer is well spelled. -/
theorem Storable.wellSpelled {answer : Answer} (h : answer.Storable) :
    answer.toJson.WellSpelled := by
  refine Json.wellSpelled_ofMembers ?_
  simp only [List.forall_mem_cons, List.not_mem_nil, IsEmpty.forall_iff, implies_true, and_true]
  refine Json.wellSpelled_ofMembers fun m hm => ?_
  obtain ⟨binding, hbinding, rfl⟩ := List.mem_map.1 hm
  exact (h.values binding hbinding).wellSpelled

/-- A list of answers is read back from its text. -/
theorem ofListText?_listText {answers : List Answer} (h : ∀ answer ∈ answers, answer.Storable) :
    ofListText? (listText answers) = some answers := by
  have hspelled : (Json.array (answers.map toJson)).WellSpelled :=
    .array (List.forall_mem_map.2 fun answer hanswer => (h answer hanswer).wellSpelled)
  have hitems : (answers.map toJson).mapM ofJson? = some answers := by
    clear hspelled
    induction answers with
    | nil => rfl
    | cons answer answers ih =>
      obtain ⟨hanswer, hanswers⟩ := List.forall_mem_cons.1 h
      simp [hanswer.ofJson?_toJson, ih hanswers]
  rw [ofListText?, listText, hspelled.read?_text]
  exact hitems

end Answer

namespace Config

/-- The bounds fit into a machine word. -/
structure Storable (config : Config) : Prop where
  /-- The bound on the depth. -/
  maxDepth : config.maxDepth < Numeral.wordBound
  /-- The bound on the calls, if there is one. -/
  maxInferences : ∀ bound ∈ config.maxInferences, bound < Numeral.wordBound

/-- A configuration is read back from its JSON value. -/
theorem Storable.ofJson?_toJson {config : Config} (h : config.Storable) :
    ofJson? config.toJson = some config := by
  simp [ofJson?, toJson, Json.ofMembers, Json.record?, Json.field?, fieldOr,
    Json.nat?_ofNat h.maxDepth, Json.optional?_elim h.maxInferences, Json.bool?]

/-- The JSON value of a configuration is well spelled. -/
theorem wellSpelled_toJson (config : Config) : config.toJson.WellSpelled := by
  refine Json.wellSpelled_ofMembers ?_
  simp only [List.forall_mem_cons, List.not_mem_nil, IsEmpty.forall_iff, implies_true, and_true]
  exact ⟨Json.wellSpelled_ofNat _, Json.wellSpelled_elim _, .bool _, .bool _⟩

end Config

/-- What was written is read back: every term without floating-point numbers, from its
compact text, with all names, slots and counts; every list of answers with such values
under distinct keys, with the bindings in their order; and every configuration. Slots,
counts and bounds are numbers of one machine word. -/
theorem written_readsBack :
    (∀ t : Term, t.Storable → Term.ofJsonText? t.jsonText = some t) ∧
    (∀ answers : List Answer, (∀ answer ∈ answers, answer.Storable) →
      Answer.ofListText? (Answer.listText answers) = some answers) ∧
    (∀ config : Config, config.Storable → Config.ofJsonText? config.jsonText = some config) := by
  refine ⟨fun t ht => ?_, fun answers h => Answer.ofListText?_listText h, fun config h => ?_⟩
  · rw [Term.ofJsonText?, Term.jsonText, ht.wellSpelled.read?_text, Option.bind_some,
      ht.ofJson?_toJson]
  · rw [Config.ofJsonText?, Config.jsonText, config.wellSpelled_toJson.read?_text, Option.bind_some,
      h.ofJson?_toJson]

/-- A term with a quote, a line break and a control character in its names is read back,
also as the value of an answer. -/
theorem written_readsBack_escaped :
    let t : Term := .compound "say \"\n" [.atom "\x01\\", .var ⟨"é", some 3⟩, .number (.int (-5))] 1
    let answer : Answer := ⟨[("Z", t), ("A\t", .var ⟨"_", none⟩)]⟩
    t.Storable ∧ answer.Storable ∧ Term.ofJsonText? t.jsonText = some t ∧
      Answer.ofListText? (Answer.listText [answer, .empty]) = some [answer, .empty] ∧
      Config.ofJsonText? (Config.jsonText ⟨7, some 0, true, false⟩) =
        some ⟨7, some 0, true, false⟩ := by
  intro t answer
  have ht : t.Storable := by
    refine .compound ?_ (by decide)
    simp only [List.forall_mem_cons, List.not_mem_nil, IsEmpty.forall_iff, implies_true, and_true]
    exact ⟨.atom _, .var (by decide), .int _⟩
  have hanswer : answer.Storable := by
    refine ⟨by decide, ?_⟩
    simp only [answer, List.forall_mem_cons, List.not_mem_nil, IsEmpty.forall_iff, implies_true,
      and_true]
    exact ⟨ht, .var (by simp)⟩
  have hempty : Answer.Storable .empty := ⟨by decide, by simp [Answer.empty]⟩
  obtain ⟨hterms, hanswers, hconfigs⟩ := written_readsBack
  refine ⟨ht, hanswer, hterms t ht, hanswers [answer, .empty] ?_, hconfigs _ ⟨by decide, by decide⟩⟩
  simp only [List.forall_mem_cons, List.not_mem_nil, IsEmpty.forall_iff, implies_true, and_true]
  exact ⟨hanswer, hempty⟩

end ClauseResolution
