import ClauseResolution.Term.Json

/-!
# The configuration of a search

A configuration bounds a search and switches two behaviours on. Its JSON form is a
record; fields that are missing keep their defaults.
-/

namespace ClauseResolution

/-- Bounds and switches of a search. -/
structure Config where
  /-- The depth of nested clauses at which calls are refused. -/
  maxDepth : Nat := 100000
  /-- The number of predicate calls allowed, if it is bounded. -/
  maxInferences : Option Nat := none
  /-- Refuse bindings that would make a term contain itself. -/
  occursCheck : Bool := false
  /-- Drop the bindings of abandoned branches. -/
  reclaimBindings : Bool := false
  deriving DecidableEq

namespace Config

/-- A configuration as a JSON value. -/
def toJson (config : Config) : Json :=
  .ofMembers [("max_depth", .ofNat config.maxDepth),
    ("max_inferences", config.maxInferences.elim .null .ofNat),
    ("occurs_check", .bool config.occursCheck),
    ("reclaim_bindings", .bool config.reclaimBindings)]

/-- The value of a field, or its default when it is missing. -/
def fieldOr {α : Type} (default : α) (read : Json → Option α) : Option Json → Option α
  | none => some default
  | some value => read value

/-- The configuration a JSON value denotes. -/
def ofJson? (value : Json) : Option Config := do
  match ← value.record? true ["max_depth", "max_inferences", "occurs_check",
    "reclaim_bindings"] with
  | [maxDepth, maxInferences, occursCheck, reclaimBindings] =>
    let default : Config := {}
    return {
      maxDepth := ← fieldOr default.maxDepth Json.nat? maxDepth
      maxInferences := ← fieldOr default.maxInferences (Json.optional? Json.nat?) maxInferences
      occursCheck := ← fieldOr default.occursCheck Json.bool? occursCheck
      reclaimBindings := ← fieldOr default.reclaimBindings Json.bool? reclaimBindings }
  | _ => none

/-- The compact JSON text of a configuration. -/
def jsonText (config : Config) : String := config.toJson.text

/-- The configuration a JSON text denotes. -/
def ofJsonText? (text : String) : Option Config := (Json.read? text).bind ofJson?

end Config

end ClauseResolution
