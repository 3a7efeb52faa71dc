import TypeInference.Conflict
import TypeInference.Term

/-!
# Pairing terms

Two terms are equal when they have one constructor and the handles inside correspond. Parameters
correspond by position, fields by name.
-/

set_option autoImplicit false

namespace TypeInference

/-- An equation between the types of two handles. -/
abbrev Equation := Handle × Handle

/-- Insert an item before the first whose name is not smaller. -/
def insertByName {α : Type} (item : String × α) : List (String × α) → List (String × α)
  | [] => [item]
  | first :: rest =>
    if item.1 ≤ first.1 then item :: first :: rest else first :: insertByName item rest

/-- Items in the order of their names; items of one name keep their order. -/
def sortByName {α : Type} : List (String × α) → List (String × α)
  | [] => []
  | item :: rest => insertByName item (sortByName rest)

/-- Fields of one name, paired. The second list is searched from its start. -/
def pairFields (fields others : List (String × Handle)) : Option (List (String × Equation)) :=
  fields.mapM fun (name, h) => (others.lookup name).map fun other => (name, h, other)

/-- The equations that make two terms equal, or why nothing does. Fields are paired in the order of
their names, whatever order the terms have. -/
def Term.pairUp : Term → Term → Except Reason (List Equation)
  | .int, .int => .ok []
  | .pointer a, .pointer b => .ok [(a, b)]
  | .function ps r, .function qs q =>
    if ps.length = qs.length then .ok (ps.zip qs ++ [(r, q)])
    else .error (.arity ps.length qs.length)
  | .record fs, .record gs =>
    if fs.length = gs.length then
      match pairFields fs gs with
      | some pairs => .ok ((sortByName pairs).map Prod.snd)
      | none => .error .fields
    else .error .fields
  | _, _ => .error .shape

end TypeInference
