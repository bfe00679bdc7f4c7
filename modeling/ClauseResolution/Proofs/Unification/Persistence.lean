import ClauseResolution.Clause.Renaming
import ClauseResolution.Proofs.Substitution.Reify
import ClauseResolution.Proofs.Unification.Steps

/-!
# Persistence of contexts

The contexts obtained from one store form a tree: each operation starts from any of them
and yields another, and a unification that fails leaves its bindings behind. No operation
touches an entry that exists, so a context means the same however many operations follow.
What a look-up needs is that every entry names an older one as its parent; then it runs
down the store without a test for the end of the store.
-/

namespace ClauseResolution

open Relation (ReflTransGen)

namespace Store

variable {σ τ : Store} {c d : Context}

/-- Every entry extends a context that is older than itself. -/
def Ordered (σ : Store) : Prop :=
  ∀ (i : Nat) (binding : Binding), σ.entries[i]? = some binding → binding.parent ≤ i

/-- A binding made in a context of the store is the newest. -/
theorem Ordered.push (h : σ.Ordered) {binding : Binding} (hparent : binding.parent ≤ σ.size) :
    (σ.push binding).1.Ordered := by
  intro i other hentry
  rw [Store.push, Array.getElem?_push] at hentry
  split at hentry
  · next hlast =>
    obtain rfl := Option.some.inj hentry
    rw [hlast]
    exact hparent
  · exact h i other hentry

/-- A store that was added to without an entry out of order. -/
structure Appends (σ τ : Store) : Prop where
  /-- The entries from before are still there. -/
  grows : σ.Grows τ
  /-- Every entry extends an older context. -/
  ordered : τ.Ordered

/-- An ordered store appends nothing to itself. -/
theorem Appends.refl (h : σ.Ordered) : σ.Appends σ := ⟨.refl σ, h⟩

/-- Appending after appending is appending. -/
theorem Appends.trans {υ : Store} (h : σ.Appends τ) (h' : τ.Appends υ) : σ.Appends υ :=
  ⟨h.grows.trans h'.grows, h'.ordered⟩

/-- Binding in a context of the store adds to the store, and yields one of its contexts. -/
theorem appends_of_bind_eq (h : σ.Ordered) (hc : σ.Holds c) {v : Var} {value : Occurrence}
    (hbind : σ.bind c v value = (τ, d)) : σ.Appends τ ∧ τ.Holds d := by
  have hordered : (σ.bind c v value).1.Ordered := by
    unfold bind
    split
    · exact h
    · split_ifs
      · exact h
      · split
        · split_ifs
          · exact h
          · exact h.push hc
        · exact h.push hc
  rcases bind_cases hc v value with ⟨hsame, _⟩ | ⟨_, τ, d, hnew, _, _, _, hgrows, _, hd, _⟩
  · obtain ⟨rfl, rfl⟩ := Prod.mk.inj (hsame.symm.trans hbind)
    exact ⟨.refl h, hc⟩
  · obtain ⟨rfl, rfl⟩ := Prod.mk.inj (hnew.symm.trans hbind)
    rw [hbind] at hordered
    exact ⟨⟨hgrows, hordered⟩, hd⟩

end Store

/-- What a unification leaves behind: it only adds to the store, and yields one of the
contexts of the store. -/
def Unified.Appends (σ : Store) : Unified → Prop
  | .unified τ d => σ.Appends τ ∧ τ.Holds d
  | .clash τ => σ.Appends τ
  | .unfinished => True

/-- What appends to a longer store appends to the store. -/
theorem Unified.Appends.of_appends {σ τ : Store} (h : σ.Appends τ) {result : Unified}
    (hresult : result.Appends τ) : result.Appends σ := by
  cases result with
  | unified υ d => exact ⟨h.trans hresult.1, hresult.2⟩
  | clash υ => exact h.trans hresult
  | unfinished => trivial

namespace Store

variable {σ τ : Store} {c d : Context} {slot : Nat}

/-- Unification in a context of the store adds to the store, however it ends. Only a
binding touches the store, and it is made in the context reached so far. -/
theorem appends_unifyPairs (h : σ.Ordered) (hc : σ.Holds c) (layout : Layout)
    (occursCheck : Bool) (steps : Nat) (entered pending : List (Occurrence × Occurrence)) :
    (unifyPairs layout occursCheck steps σ c entered pending).Appends σ := by
  fun_induction unifyPairs layout occursCheck steps σ c entered pending
  case case1 => exact ⟨.refl h, hc⟩
  case case2 => trivial
  case case7 | case10 | case16 | case18 | case20 | case21 => exact .refl h
  case case5 ih | case8 ih | case11 ih =>
    obtain ⟨happends, hd⟩ := appends_of_bind_eq h hc ‹Store.bind _ _ _ _ = _›
    exact (ih happends.ordered hd).of_appends happends
  case case3 ih | case4 ih | case6 ih | case9 ih | case12 ih | case13 ih | case14 ih | case15 ih |
      case17 ih | case19 ih =>
    exact ih h hc

/-- The run of a look-up that goes from an entry straight to the parent the entry names:
the stamps of the entries it reads, and the value it ends with. Each of these entries
has to be in the store. -/
inductive Reads (σ : Store) (slot : Nat) : Nat → List Nat → Option Occurrence → Prop
  /-- The empty substitution binds nothing. -/
  | root : Reads σ slot 0 [] none
  /-- The entry binds the slot. -/
  | hit {stamp : Nat} {binding : Binding} (hentry : σ.entries[stamp]? = some binding)
      (hslot : binding.slot = slot) : Reads σ slot (stamp + 1) [stamp + 1] (some binding.value)
  /-- The entry binds another slot, and its parent is next. -/
  | next {stamp : Nat} {binding : Binding} {stamps : List Nat} {value : Option Occurrence}
      (hentry : σ.entries[stamp]? = some binding) (hslot : binding.slot ≠ slot)
      (hrest : Reads σ slot binding.parent stamps value) :
      Reads σ slot (stamp + 1) ((stamp + 1) :: stamps) value

/-- A look-up in a context of the store descends from stamp to stamp within the store, and
ends with the value of the slot. -/
theorem exists_reads (h : σ.Ordered) {stamp : Nat} (hstamp : stamp ≤ σ.size) (slot : Nat) :
    ∃ stamps, σ.Reads slot stamp stamps (σ.lookupFrom slot stamp) ∧
      (∀ visited ∈ stamps, visited ≤ stamp) ∧ stamps.Pairwise (· > ·) := by
  fun_induction lookupFrom σ slot stamp with
  | case1 => exact ⟨[], .root, by simp, .nil⟩
  | case2 stamp hlt binding hslot =>
    exact ⟨[stamp + 1], .hit (Array.getElem?_eq_getElem hlt) hslot, by simp, by simp⟩
  | case3 stamp hlt binding hslot ih =>
    have hentry : σ.entries[stamp]? = some binding := Array.getElem?_eq_getElem hlt
    have hparent : binding.parent ≤ stamp := h stamp binding hentry
    rw [min_eq_left hparent] at ih ⊢
    obtain ⟨stamps, hreads, hbound, hpairwise⟩ := ih (by omega)
    refine ⟨(stamp + 1) :: stamps, .next hentry hslot hreads, ?_, ?_⟩
    · intro visited hvisited
      rcases List.mem_cons.1 hvisited with rfl | hvisited
      · exact le_refl _
      · have := hbound visited hvisited
        omega
    · refine List.pairwise_cons.2 ⟨fun visited hvisited => ?_, hpairwise⟩
      have := hbound visited hvisited
      omega
  | case4 stamp hge => exact absurd hstamp hge

/-- The stamp of an entry is positive. -/
theorem Reads.pos_of_mem {stamp visited : Nat} {stamps : List Nat} {value : Option Occurrence}
    (h : σ.Reads slot stamp stamps value) (hvisited : visited ∈ stamps) : 0 < visited := by
  induction h with
  | root => cases hvisited
  | hit _ _ =>
    rw [List.mem_singleton.1 hvisited]
    exact Nat.succ_pos _
  | next _ _ _ ih =>
    rcases List.mem_cons.1 hvisited with rfl | hvisited
    · exact Nat.succ_pos _
    · exact ih hvisited

/-- What is read off a context is the same in two stores that give it one meaning. -/
structure Alike (σ τ : Store) (c : Context) : Prop where
  /-- Every slot has the same value, at the same occurrence. -/
  valueAt : ∀ slot, τ.valueAt c slot = σ.valueAt c slot
  /-- Every slot is bound to the same term. -/
  lookup : ∀ slot, τ.lookup c slot = σ.lookup c slot
  /-- Every occurrence stands for the same at its root. -/
  deref : ∀ o, τ.deref c o = σ.deref c o
  /-- The same variables are bound. -/
  isBound : ∀ v, τ.isBound c v = σ.isBound c v
  /-- The same variables occur in a term. -/
  occurs : ∀ v t, τ.occurs c v t = σ.occurs c v t
  /-- A term has the same instance. -/
  reify : ∀ t, τ.reify c t = σ.reify c t

/-- The substitution of a context decides all that is read off the context. -/
theorem alike_of_substitution_eq (h : σ.substitution c = τ.substitution c) : σ.Alike τ c where
  valueAt slot := (valueAt_eq_of_substitution_eq h slot).symm
  lookup slot := by rw [Store.lookup, Store.lookup, valueAt_eq_of_substitution_eq h]
  deref o := by
    rw [Store.deref, Store.deref, derefWithin_eq_followWithin, derefWithin_eq_followWithin, h]
  isBound v := by
    rw [Store.isBound, Store.isBound, valueOf, valueOf, funext (valueAt_eq_of_substitution_eq h)]
  occurs v t := (occurs_eq_of_substitution_eq h v t).symm
  reify t := (reify_congr (valueAt_eq_of_substitution_eq h) t).symm

end Store

/-- A store with the contexts that were obtained from it, the latest first. -/
structure History where
  /-- The store all contexts share. -/
  store : Store
  /-- The contexts obtained so far. -/
  contexts : List Context

namespace History

variable {h h' : History} {c : Context}

/-- A new store with its empty context. -/
def start : History := ⟨.empty, [.empty]⟩

/-- One operation, in any context obtained so far. A unification that fails yields no
context, and its bindings remain in the store. -/
inductive Step : History → History → Prop
  /-- Slots are allocated. -/
  | allocate {σ : Store} {contexts : List Context} {c : Context} (hc : c ∈ contexts)
      (count : Nat) : Step ⟨σ, contexts⟩ ⟨σ, (c.allocate count).1 :: contexts⟩
  /-- A variable is bound. -/
  | bind {σ τ : Store} {contexts : List Context} {c d : Context} (hc : c ∈ contexts) {v : Var}
      {value : Occurrence} (hbind : σ.bind c v value = (τ, d)) :
      Step ⟨σ, contexts⟩ ⟨τ, d :: contexts⟩
  /-- A clause is given fresh variables. -/
  | rename {σ : Store} {contexts : List Context} {c : Context} (hc : c ∈ contexts)
      (clause : Clause) : Step ⟨σ, contexts⟩ ⟨σ, (clause.rename c).context :: contexts⟩
  /-- Two terms are unified. -/
  | unify {σ τ : Store} {contexts : List Context} {c d : Context} (hc : c ∈ contexts)
      {layout : Layout} {occursCheck : Bool} {steps : Nat} {left right : Occurrence}
      (hunify : ClauseResolution.unify layout occursCheck steps σ c left right = .unified τ d) :
      Step ⟨σ, contexts⟩ ⟨τ, d :: contexts⟩
  /-- Two terms cannot be unified. -/
  | clash {σ τ : Store} {contexts : List Context} {c : Context} (hc : c ∈ contexts)
      {layout : Layout} {occursCheck : Bool} {steps : Nat} {left right : Occurrence}
      (hunify : ClauseResolution.unify layout occursCheck steps σ c left right = .clash τ) :
      Step ⟨σ, contexts⟩ ⟨τ, contexts⟩

/-- Every entry of the store extends an older context, and every context is one of the
store. -/
structure Consistent (h : History) : Prop where
  /-- The entries are in order. -/
  ordered : h.store.Ordered
  /-- The entry of each context is there. -/
  holds : ∀ c ∈ h.contexts, h.store.Holds c

/-- The history at its start is consistent. -/
theorem consistent_start : start.Consistent where
  ordered i binding hentry := by simp [start, Store.empty] at hentry
  holds c hc := by
    obtain rfl := List.mem_singleton.1 hc
    exact Nat.zero_le _

/-- The later history has all entries and all contexts of the earlier one, and is in order. -/
structure Extends (h h' : History) : Prop where
  /-- The store was only added to. -/
  appends : h.store.Appends h'.store
  /-- No context was lost. -/
  subset : h.contexts ⊆ h'.contexts
  /-- The entry of each context is there. -/
  holds : ∀ c ∈ h'.contexts, h'.store.Holds c

namespace Extends

/-- A consistent history extends itself. -/
theorem refl (hconsistent : h.Consistent) : h.Extends h :=
  ⟨.refl hconsistent.ordered, List.Subset.refl _, hconsistent.holds⟩

/-- What extends an extension extends the first history. -/
theorem trans {h'' : History} (hfirst : h.Extends h') (hsecond : h'.Extends h'') :
    h.Extends h'' :=
  ⟨hfirst.appends.trans hsecond.appends, List.Subset.trans hfirst.subset hsecond.subset,
    hsecond.holds⟩

/-- What extends a history is consistent. -/
theorem consistent (hextends : h.Extends h') : h'.Consistent :=
  ⟨hextends.appends.ordered, hextends.holds⟩

/-- One context more, of a store that was only added to. -/
theorem of_cons {σ τ : Store} {contexts : List Context} {d : Context}
    (h : Consistent ⟨σ, contexts⟩) (happends : σ.Appends τ) (hd : τ.Holds d) :
    Extends ⟨σ, contexts⟩ ⟨τ, d :: contexts⟩ := by
  refine ⟨happends, List.subset_cons_self _ _, fun c hc => ?_⟩
  rcases List.mem_cons.1 hc with rfl | hc
  · exact hd
  · exact (h.holds c hc).of_grows happends.grows

end Extends

/-- One operation leaves what was there in order. -/
theorem Step.extends (hstep : Step h h') (hconsistent : h.Consistent) : h.Extends h' := by
  have hsame := Store.Appends.refl hconsistent.ordered
  cases hstep with
  | allocate hc count =>
    have hholds := hconsistent.holds _ hc
    exact .of_cons hconsistent hsame hholds
  | rename hc clause =>
    have hholds := hconsistent.holds _ hc
    exact .of_cons hconsistent hsame hholds
  | bind hc hbind =>
    obtain ⟨happends, hd⟩ :=
      Store.appends_of_bind_eq hconsistent.ordered (hconsistent.holds _ hc) hbind
    exact .of_cons hconsistent happends hd
  | @unify σ τ contexts c d hc layout occursCheck steps left right hunify =>
    have hunified := Store.appends_unifyPairs hconsistent.ordered (hconsistent.holds _ hc)
      layout occursCheck steps [] [(left, right)]
    rw [ClauseResolution.unify, unifyAll] at hunify
    rw [hunify] at hunified
    exact .of_cons hconsistent hunified.1 hunified.2
  | @clash σ τ contexts c hc layout occursCheck steps left right hunify =>
    have happends : σ.Appends τ := by
      have hunified := Store.appends_unifyPairs hconsistent.ordered (hconsistent.holds _ hc)
        layout occursCheck steps [] [(left, right)]
      rw [ClauseResolution.unify, unifyAll] at hunify
      rwa [hunify] at hunified
    exact ⟨happends, List.Subset.refl _,
      fun c hc => (hconsistent.holds c hc).of_grows happends.grows⟩

/-- So does any number of operations. -/
theorem extends_of_reflTransGen (hconsistent : h.Consistent) (hsteps : ReflTransGen Step h h') :
    h.Extends h' := by
  induction hsteps with
  | refl => exact .refl hconsistent
  | tail _ hstep ih => exact ih.trans (hstep.extends ih.consistent)

/-- A context keeps its meaning, whatever operations follow in whatever contexts; and
every look-up in it reads entries of the store only, each older than the one before. -/
theorem persistent (hearlier : ReflTransGen Step start h) (hlater : ReflTransGen Step h h')
    (hc : c ∈ h.contexts) :
    c ∈ h'.contexts ∧ h.store.Alike h'.store c ∧
      ∀ slot, ∃ stamps, h'.store.Reads slot c.stamp stamps (h'.store.valueAt c slot) ∧
        stamps.Pairwise (· > ·) ∧ ∀ stamp ∈ stamps, 0 < stamp ∧ stamp ≤ h'.store.size := by
  have hconsistent := (extends_of_reflTransGen consistent_start hearlier).consistent
  have hextends := extends_of_reflTransGen hconsistent hlater
  have hholds := hconsistent.holds c hc
  have hagree := hextends.appends.grows.agree
  have hstamp : c.stamp ≤ h'.store.size := hextends.holds c (hextends.subset hc)
  refine ⟨hextends.subset hc, Store.alike_of_substitution_eq (hagree.substitution_eq hholds), ?_⟩
  intro slot
  obtain ⟨stamps, hreads, hbound, hpairwise⟩ := h'.store.exists_reads hextends.appends.ordered
    hstamp slot
  exact ⟨stamps, hreads, hpairwise,
    fun stamp hmem => ⟨hreads.pos_of_mem hmem, (hbound stamp hmem).trans hstamp⟩⟩

/-- Slot 0 is bound to `a`. In the context from before, `p(X, a)` and `p(b, c)` are not
unified, which leaves a binding of slot 0 to `b`. The first binding still holds. -/
theorem persistent_clash :
    let root : Context := (Context.empty.allocate 1).1
    let x : Var := ⟨"X", some 0⟩
    let left : Occurrence := .whole 1 (.apply "p" [.var x, .atom "a"])
    let right : Occurrence := .whole 2 (.apply "p" [.atom "b", .atom "c"])
    let (σ, bound) := Store.empty.bind root x (.whole 0 (.atom "a"))
    ∃ τ, ClauseResolution.unify .byOccurrence false 3 σ root left right = .clash τ ∧ τ.size = 2 ∧
      τ.lookup bound 0 = some (.atom "a") := by
  intro root x left right
  let σ : Store := ⟨#[⟨0, .whole 0 (.atom "a"), 0⟩]⟩
  let τ : Store := ⟨#[⟨0, .whole 0 (.atom "a"), 0⟩, ⟨0, ⟨2, 1, .atom "b"⟩, 0⟩]⟩
  have hclash : ClauseResolution.unify .byOccurrence false 3 σ root left right = .clash τ := by cbv
  have hbind : Store.empty.bind root x (.whole 0 (.atom "a")) = (σ, ⟨1, 1⟩) := rfl
  have hearlier : ReflTransGen Step start ⟨σ, [⟨1, 1⟩, root, .empty]⟩ :=
    ReflTransGen.tail (.single (.allocate List.mem_cons_self 1)) (.bind List.mem_cons_self hbind)
  have hlater : ReflTransGen Step ⟨σ, [⟨1, 1⟩, root, .empty]⟩ ⟨τ, [⟨1, 1⟩, root, .empty]⟩ :=
    .single (.clash (by simp) hclash)
  obtain ⟨_, halike, _⟩ := persistent hearlier hlater List.mem_cons_self
  have hkept : τ.lookup ⟨1, 1⟩ 0 = σ.lookup ⟨1, 1⟩ 0 := halike.lookup 0
  have hbound : σ.lookup ⟨1, 1⟩ 0 = some (.atom "a") := by cbv
  exact ⟨τ, hclash, rfl, hkept.trans hbound⟩

end History

end ClauseResolution
