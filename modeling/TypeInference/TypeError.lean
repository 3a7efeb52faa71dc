import TypeInference.Conflict

/-!
# Type errors

What can end a check: a conflict between types, a type that nothing determines, a name without or
with two declarations, or a node that was never numbered.
-/

set_option autoImplicit false

namespace TypeInference

/-- The first fault found in a program, with its place. -/
inductive TypeError
  | conflict (conflict : Conflict) (span : Span)
  | unresolved (node : Handle) (kind : NodeKind) (type : String) (span : Span)
  | unboundName (name : String) (node : Handle) (span : Span)
  | duplicateName (name : String) (node : Handle) (span : Span)
  | unassigned (kind : NodeKind) (span : Span)
deriving DecidableEq, Repr, Inhabited

namespace TypeError

/-- A mismatch contradicts every typing; all other errors say that a program is incomplete. -/
def isMismatch : TypeError → Bool
  | conflict .. => true
  | _ => false

/-- The place of an error. -/
def span : TypeError → Span
  | conflict _ span | unresolved _ _ _ span | unboundName _ _ span | duplicateName _ _ span
  | unassigned _ span => span

/-- The reason of a mismatch between two types. -/
def reason? : TypeError → Option Reason
  | conflict c _ => c.reason?
  | _ => none

/-- How an error is worded, without its place. -/
def detail : TypeError → String
  | conflict c _ => c.text
  | unresolved node kind type _ => s!"cannot infer a type for {kind.text} node #{node}: {type}"
  | unboundName name .. => s!"unknown identifier `{name}`"
  | duplicateName name .. => s!"`{name}` is declared more than once"
  | unassigned kind _ => s!"{kind.text} has no node id; run identity assignment first"

/-- How an error is worded, its place first. -/
def message (e : TypeError) : String := s!"[{e.span.text}] {e.detail}"

end TypeError

end TypeInference
