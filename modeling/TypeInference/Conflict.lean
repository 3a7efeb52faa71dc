import TypeInference.Node

/-!
# Conflicts

A conflict is a contradiction between two types: they do not match, for a stated reason, or one of
them would have to contain itself.
-/

set_option autoImplicit false

namespace TypeInference

/-- Why two types do not match. -/
inductive Reason
  | shape
  | arity (expected found : Nat)
  | fields
  | missingField (name : String)
  | duplicateField (name : String)
  | notPointer
  | notRecord
  | notFunction
deriving DecidableEq, Repr, Inhabited

/-- How a reason is worded. -/
def Reason.text : Reason → String
  | shape => "type mismatch"
  | arity expected found => s!"arity mismatch: expected {expected} arguments, found {found}"
  | fields => "record fields differ"
  | missingField name => s!"no field `{name}`"
  | duplicateField name => s!"field `{name}` given twice"
  | notPointer => "dereference of a non-pointer"
  | notRecord => "field access on a non-record"
  | notFunction => "call of a non-function"

/-- A contradiction between two types, described by handles and by the types' texts. -/
inductive Conflict
  | mismatch (reason : Reason) (left right : Handle) (expected found : String)
  | infinite (node : Handle) (nodeType type : String)
deriving DecidableEq, Repr, Inhabited

namespace Conflict

/-- The reason of a mismatch; a type that contains itself has none. -/
def reason? : Conflict → Option Reason
  | mismatch reason .. => some reason
  | infinite .. => none

/-- How a conflict is worded. -/
def text : Conflict → String
  | mismatch reason left _ expected found =>
    s!"{reason.text} at node #{left}: {expected} does not match {found}"
  | infinite node nodeType type =>
    s!"infinite type at node #{node}: {nodeType} would contain itself in {type}"

end Conflict

end TypeInference
