import ClauseResolution.Database.Dynamic
import ClauseResolution.Database.Theory

/-!
# Providers and the predicate index

Clauses come from providers, which are known by number and may change while the
numbers are held. An index lists the positions of the registrations for every predicate
and, under each key, of those for that key. A predicate is routed to the registrations on
three lists, which are asked in the order of their registration, each of them once.
-/

namespace ClauseResolution

/-- A source of clauses. -/
inductive Provider
  /-- A theory. -/
  | theory (clauses : Theory)
  /-- Clauses asserted at run time. -/
  | dynamic (clauses : DynamicClauses)
  /-- Any other source, by its answer to each predicate indicator. -/
  | external (clauses : String → List Clause)

/-- The candidates a provider has for a predicate. -/
def Provider.matching : Provider → String → List Clause
  | .theory clauses, key => clauses.matching key
  | .dynamic clauses, key => clauses.matching key
  | .external clauses, key => clauses key

/-- The predicates a registration is for. -/
inductive Scope
  /-- Every predicate. -/
  | every
  /-- The predicate of an indicator, or every arity of a name for `name/*`. -/
  | key (key : String)
  deriving DecidableEq

/-- The part of an indicator before its last slash. -/
def indicatorName? (key : String) : Option String :=
  match key.toList.reverse.dropWhile (· != '/') with
  | [] => none
  | _ :: name => some (String.ofList name.reverse)

/-- The registration serves a predicate. -/
def Scope.serves (scope : Scope) (key : String) : Bool :=
  match scope with
  | .every => true
  | .key own =>
    own == key || match indicatorName? key with
      | some name => own == variadicIndicator name
      | none => false

/-- A provider registered for some predicates. -/
structure Registration where
  /-- The predicates served. -/
  scope : Scope
  /-- The number of the provider. -/
  provider : Nat

/-- The positions of the registrations with a scope, the oldest first. -/
def positionsWith (registrations : Array Registration) (scope : Scope) : List Nat :=
  (List.range registrations.size).filter fun position =>
    registrations[position]?.any fun registration => registration.scope = scope

/-- A further registration has the last position with its scope. -/
theorem positionsWith_push (registrations : Array Registration) (registration : Registration)
    (scope : Scope) : positionsWith (registrations.push registration) scope =
      positionsWith registrations scope ++
        if registration.scope = scope then [registrations.size] else [] := by
  have hold : ∀ position ∈ List.range registrations.size,
      ((registrations.push registration)[position]?.any fun r => r.scope = scope) =
        registrations[position]?.any fun r => r.scope = scope := fun position hposition => by
    rw [Array.getElem?_push_lt (List.mem_range.1 hposition), Array.getElem?_eq_getElem]
  rw [positionsWith, Array.size_push, List.range_succ, List.filter_append,
    List.filter_congr hold, ← positionsWith]
  congr 1
  by_cases h : registration.scope = scope <;> simp [h]

/-- The registrations, in order, with the lists by which predicates are routed to them. -/
structure ClauseIndex where
  /-- The registrations, the oldest first. -/
  registrations : Array Registration
  /-- The positions of the registrations under each key. -/
  byKey : Groups Nat
  /-- The positions of the registrations for every predicate. -/
  global : List Nat
  /-- Under a key stand the registrations for it, the oldest first. -/
  byKey_get : ∀ key, byKey.get key = positionsWith registrations (.key key)
  /-- The other list has the registrations for every predicate, the oldest first. -/
  global_eq : global = positionsWith registrations .every

namespace ClauseIndex

/-- An index without registrations. -/
def empty : ClauseIndex where
  registrations := #[]
  byKey := .empty
  global := []
  byKey_get _ := rfl
  global_eq := rfl

/-- Registers a provider for the predicate or name of an indicator. -/
def register (index : ClauseIndex) (key : String) (provider : Nat) : ClauseIndex where
  registrations := index.registrations.push ⟨.key key, provider⟩
  byKey := index.byKey.add key index.registrations.size
  global := index.global
  byKey_get other := by
    rw [Groups.get_add, index.byKey_get, positionsWith_push]
    simp only [Scope.key.injEq, eq_comm]
  global_eq := by
    rw [positionsWith_push, if_neg (by simp), List.append_nil, index.global_eq]

/-- Registers a provider for every predicate. -/
def registerGlobal (index : ClauseIndex) (provider : Nat) : ClauseIndex where
  registrations := index.registrations.push ⟨.every, provider⟩
  byKey := index.byKey
  global := index.global ++ [index.registrations.size]
  byKey_get key := by
    rw [positionsWith_push, if_neg (by simp), List.append_nil, index.byKey_get]
  global_eq := by
    rw [positionsWith_push, if_pos rfl, index.global_eq]

/-- The number of registrations. -/
def size (index : ClauseIndex) : Nat := index.registrations.size

/-- The positions of the registrations that serve a predicate, in order: those for every
predicate, those under its key, and those for every arity of its name. -/
def positionsFor (index : ClauseIndex) (key : String) : List Nat :=
  let variadic := (indicatorName? key).elim [] fun name => index.byKey.get (variadicIndicator name)
  ((index.global ++ index.byKey.get key ++ variadic).mergeSort (· ≤ ·)).eraseReps

/-- The candidates a registration gives for a predicate. -/
def offered (index : ClauseIndex) (providers : Array Provider) (key : String) (position : Nat) :
    List Clause :=
  match index.registrations[position]? with
  | some registration => (providers[registration.provider]?.map (·.matching key)).getD []
  | none => []

/-- The candidates for a predicate, in the order of registration. -/
def matching (index : ClauseIndex) (providers : Array Provider) (key : String) : List Clause :=
  (index.positionsFor key).flatMap (index.offered providers key)

end ClauseIndex

end ClauseResolution
