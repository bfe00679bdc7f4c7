import ClauseResolution.Term.Occurrence

/-!
# Persistent substitutions

All bindings made during a search are kept in one store that only grows at its end. A
context names an entry of the store by its stamp, and denotes the bindings on the
chain that leads from that entry through the parents. Later bindings never touch a
chain, so going back to an older context undoes them. The value of a variable is an
occurrence, so that it is known where the value was written.

A search counts slots from zero and comes nowhere near the largest one that a machine word
holds. Whoever allocates slots directly may go there, and then sums start again at zero.
-/

namespace ClauseResolution

/-- One binding, made in the context with stamp `parent`. -/
structure Binding where
  /-- The slot of the bound variable. -/
  slot : Nat
  /-- What the variable is bound to. -/
  value : Occurrence
  /-- The stamp of the context that was extended. -/
  parent : Nat

/-- All bindings of a search. The entry at position `i` has stamp `i + 1`. -/
structure Store where
  /-- The bindings in the order they were made. -/
  entries : Array Binding

/-- A substitution, as the entry that was added last. -/
structure Context where
  /-- The stamp of the entry; zero denotes the empty substitution. -/
  stamp : Nat
  /-- The first slot that is not allocated. -/
  top : Nat
  deriving DecidableEq

/-- The number of slots that a machine word can tell apart. -/
def slotBound : Nat := UInt64.size

namespace Context

/-- The empty substitution without any slot. -/
def empty : Context := ⟨0, 0⟩

/-- Reserves fresh slots and returns the first of them. -/
def allocate (c : Context) (count : Nat) : Context × Nat := (⟨c.stamp, c.top + count⟩, c.top)

/-- Reserves fresh slots, counted in a machine word, and returns the first of them. -/
def allocateWord (c : Context) (count : Nat) : Context × Nat :=
  (⟨c.stamp, (c.top + count) % slotBound⟩, c.top)

/-- A context in the form that shows its parts. -/
def inspect (c : Context) : String :=
  "Context \x7b stamp: " ++ toString c.stamp ++ ", top: " ++ toString c.top ++ ", .. \x7d"

end Context

namespace Store

/-- A store without bindings. -/
def empty : Store := ⟨#[]⟩

/-- The number of bindings. -/
def size (σ : Store) : Nat := σ.entries.size

/-- A store in the form that shows its size. -/
def inspect (σ : Store) : String :=
  "BindingStore \x7b entries: " ++ toString σ.size ++ " \x7d"

/-- Drops every binding from position `size` on. Contexts with a greater stamp lose
their meaning. -/
def truncate (σ : Store) (size : Nat) : Store := ⟨σ.entries.shrink size⟩

/-- Adds a binding and returns its stamp. -/
def push (σ : Store) (binding : Binding) : Store × Nat :=
  let entries := σ.entries.push binding
  (⟨entries⟩, entries.size)

/-- Binds a variable in a context. Nothing is bound when the variable has no slot, is
anonymous, or would be bound to itself. -/
def bind (σ : Store) (c : Context) (v : Var) (value : Occurrence) : Store × Context :=
  match v.index with
  | none => (σ, c)
  | some slot =>
    if v.isAnonymous then (σ, c)
    else
      match value.term with
      | .var other =>
        if other.index = some slot then (σ, c)
        else
          let (σ, stamp) := σ.push ⟨slot, value, c.stamp⟩
          (σ, ⟨stamp, c.top⟩)
      | _ =>
        let (σ, stamp) := σ.push ⟨slot, value, c.stamp⟩
        (σ, ⟨stamp, c.top⟩)

/-- The value bound to a slot on the chain from a stamp. A parent is older than its
entry, so the chain descends. -/
def lookupFrom (σ : Store) (slot : Nat) : Nat → Option Occurrence
  | 0 => none
  | stamp + 1 =>
    if h : stamp < σ.entries.size then
      let binding := σ.entries[stamp]
      if binding.slot = slot then some binding.value
      else lookupFrom σ slot (min binding.parent stamp)
    else none
termination_by stamp => stamp

/-- The value a context binds directly to a slot, where it stands. -/
def valueAt (σ : Store) (c : Context) (slot : Nat) : Option Occurrence :=
  σ.lookupFrom slot c.stamp

/-- The term a context binds directly to a slot. -/
def lookup (σ : Store) (c : Context) (slot : Nat) : Option Term :=
  (σ.valueAt c slot).map Occurrence.term

/-- The value a context binds directly to a variable. -/
def valueOf (σ : Store) (c : Context) (v : Var) : Option Occurrence :=
  v.index.bind (σ.valueAt c)

/-- The variable is bound. -/
def isBound (σ : Store) (c : Context) (v : Var) : Bool := (σ.valueOf c v).isSome

/-- Follows at most `hops` bindings from a variable to a variable. -/
def derefWithin (σ : Store) (c : Context) : Nat → Occurrence → Occurrence
  | 0, o => o
  | hops + 1, o =>
    match o.term with
    | .var v =>
      match σ.valueOf c v with
      | some value => derefWithin σ c hops value
      | none => o
    | _ => o

/-- What an occurrence stands for at its root: a free variable or a term that is no
variable. A chain of bindings without a cycle is no longer than the stamp. -/
def deref (σ : Store) (c : Context) (o : Occurrence) : Occurrence := σ.derefWithin c c.stamp o

end Store

end ClauseResolution
