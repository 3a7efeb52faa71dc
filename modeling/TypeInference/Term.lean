import TypeInference.Node

/-!
# Terms

A term is one layer of a type: its constructor, with handles in place of the types inside. A class
of handles that is still unknown has no term at all.
-/

set_option autoImplicit false

namespace TypeInference

/-- One layer of a type. -/
inductive Term
  | int
  | pointer (target : Handle)
  | function (params : List Handle) (result : Handle)
  | record (fields : List (String × Handle))
deriving DecidableEq, Repr, Inhabited

namespace Term

/-- The handles inside a term: parameters before the result, fields in their order. -/
def children : Term → List Handle
  | int => []
  | pointer target => [target]
  | function params result => params ++ [result]
  | record fields => fields.map Prod.snd

/-- The word for a term's constructor. -/
def shape : Term → String
  | int => "int"
  | pointer _ => "pointer"
  | function .. => "function"
  | record _ => "record"

/-- The handle of the first field of that name. -/
def field? (name : String) : Term → Option Handle
  | record fields => fields.lookup name
  | _ => none

end Term

end TypeInference
