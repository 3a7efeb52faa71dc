import TypeInference.Checker.Basic
import TypeInference.Checker.Finish
import TypeInference.Checker.Program
import TypeInference.Checker.Solve
import TypeInference.Conflict
import TypeInference.Constraint.Basic
import TypeInference.Constraint.Generate
import TypeInference.Event
import TypeInference.Node
import TypeInference.Pairing
import TypeInference.Proofs.Abridgement
import TypeInference.Proofs.Acyclic
import TypeInference.Proofs.Agreement
import TypeInference.Proofs.Calls
import TypeInference.Proofs.Checking
import TypeInference.Proofs.Compatible
import TypeInference.Proofs.Conflicts
import TypeInference.Proofs.Congruence
import TypeInference.Proofs.Constraints
import TypeInference.Proofs.Containment
import TypeInference.Proofs.Counterparts
import TypeInference.Proofs.Coverage
import TypeInference.Proofs.Declarations
import TypeInference.Proofs.Defaulting
import TypeInference.Proofs.Driving
import TypeInference.Proofs.Extension
import TypeInference.Proofs.FieldOrder
import TypeInference.Proofs.Finishing
import TypeInference.Proofs.FixedPoint
import TypeInference.Proofs.Forest
import TypeInference.Proofs.Freedom
import TypeInference.Proofs.Freshness
import TypeInference.Proofs.FunctionOrder
import TypeInference.Proofs.Gathering
import TypeInference.Proofs.Ground
import TypeInference.Proofs.Growth
import TypeInference.Proofs.Handles
import TypeInference.Proofs.Identity
import TypeInference.Proofs.Locality
import TypeInference.Proofs.Minting
import TypeInference.Proofs.Naming
import TypeInference.Proofs.Numbering
import TypeInference.Proofs.Outcomes
import TypeInference.Proofs.Parts
import TypeInference.Proofs.Policies
import TypeInference.Proofs.Reach
import TypeInference.Proofs.Readability
import TypeInference.Proofs.Rechecking
import TypeInference.Proofs.Recursion
import TypeInference.Proofs.Rendering
import TypeInference.Proofs.Repetition
import TypeInference.Proofs.Representation
import TypeInference.Proofs.Retention
import TypeInference.Proofs.Rules
import TypeInference.Proofs.Scoping
import TypeInference.Proofs.Settling
import TypeInference.Proofs.Solutions
import TypeInference.Proofs.Steps
import TypeInference.Proofs.Symmetry
import TypeInference.Proofs.Typings
import TypeInference.Proofs.Unify
import TypeInference.Proofs.Variables
import TypeInference.Proofs.Visiting
import TypeInference.Span
import TypeInference.Store.Basic
import TypeInference.Store.Expand
import TypeInference.Store.Reach
import TypeInference.Store.Render
import TypeInference.Store.Unify
import TypeInference.Term
import TypeInference.Tree.Basic
import TypeInference.Tree.Numbering
import TypeInference.Tree.Preorder
import TypeInference.Ty
import TypeInference.TypeError
