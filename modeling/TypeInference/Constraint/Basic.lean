import TypeInference.Term
import TypeInference.TypeError

/-!
# Constraints

What a program demands of the types of its nodes. Constraints are solved in order, and the first
that cannot be met ends the check.
-/

set_option autoImplicit false

namespace TypeInference

/-- A field access: the type of `node` is that of a field of `record`. -/
structure Access where
  node : Handle
  record : Handle
  field : String
  span : Span := {}
deriving DecidableEq, Repr, Inhabited

/-- A demand on the types of some handles, with the place it comes from. -/
inductive Constraint
  /-- The type of `node` is that of the term. -/
  | bind (node : Handle) (term : Term) (span : Span)
  /-- Two handles have one type. -/
  | unify (left right : Handle) (span : Span)
  /-- The callee is a function from the types of the arguments to that of the result. -/
  | call (callee : Handle) (args : List Handle) (result : Handle) (span : Span)
  /-- The pointer points at the type of `target`. -/
  | deref (pointer target : Handle) (span : Span)
  /-- The type of `node` is a pointer to some type. -/
  | null (node : Handle) (span : Span)
  /-- A record has a field of a given type. -/
  | access (access : Access)
  /-- A record literal names a field twice, which no type permits. -/
  | repeatedField (record field : Handle) (name : String) (span : Span)
  /-- The tree has a fault that is not one of types. -/
  | reject (error : TypeError)
deriving DecidableEq, Repr, Inhabited

end TypeInference
