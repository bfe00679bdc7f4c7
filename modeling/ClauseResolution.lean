import ClauseResolution.Clause.Renaming
import ClauseResolution.Database.Index
import ClauseResolution.Engine.Solve
import ClauseResolution.Term.Json
import ClauseResolution.Proofs.Engine.Completeness
import ClauseResolution.Proofs.Engine.Freshness
import ClauseResolution.Proofs.Engine.Interruption
import ClauseResolution.Proofs.Engine.Names
import ClauseResolution.Proofs.Engine.Pruning
import ClauseResolution.Proofs.Engine.Recursion
import ClauseResolution.Proofs.Engine.Soundness
import ClauseResolution.Proofs.Engine.Termination
import ClauseResolution.Proofs.Engine.Truncation
import ClauseResolution.Proofs.Engine.Wildcards
import ClauseResolution.Proofs.Json.RoundTrip
import ClauseResolution.Proofs.Json.Storage
import ClauseResolution.Proofs.Search.Reclaiming
import ClauseResolution.Proofs.Search.Refinement
import ClauseResolution.Proofs.Unification.Persistence
import ClauseResolution.Proofs.Unification.Reached
import ClauseResolution.Proofs.Unification.Unchecked
import ClauseResolution.Proofs.Substitution.Composition
import ClauseResolution.Proofs.Substitution.Occurs
import ClauseResolution.Proofs.Unification.Derived
import ClauseResolution.Proofs.Substitution.Mirror
import ClauseResolution.Proofs.Unification.Symmetry
import ClauseResolution.Proofs.Unification.Solved
import ClauseResolution.Proofs.Unification.Modes
import ClauseResolution.Proofs.Clause.Normalization
import ClauseResolution.Proofs.Clause.Variants
import ClauseResolution.Proofs.Unification.Sharing
import ClauseResolution.Proofs.Clause.Identity
import ClauseResolution.Proofs.Clause.ReadBack
import ClauseResolution.Proofs.Engine.Answers
import ClauseResolution.Proofs.Engine.Assertion
import ClauseResolution.Proofs.Term.Readability
import ClauseResolution.Proofs.Database.Slots
import ClauseResolution.Proofs.Database.Log
import ClauseResolution.Proofs.Engine.Cuts
import ClauseResolution.Proofs.Engine.Marks
import ClauseResolution.Proofs.Term.Tour
