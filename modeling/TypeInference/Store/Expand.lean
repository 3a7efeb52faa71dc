import TypeInference.Store.Basic
import TypeInference.Ty

/-!
# Full types

Reading a class out of the store as a type. Classes that share a part are written out in full, so
the type can be far larger than the store.
-/

set_option autoImplicit false

namespace TypeInference

/-- The type of a term, given the types of the handles inside. -/
def Term.toTy (t : Term) (type : Handle → Ty) : Ty :=
  match t with
  | .int => .int
  | .pointer target => .pointer (type target)
  | .function params result => .function (params.map type) (type result)
  | .record fields => .record (fields.map fun (name, h) => (name, type h))

namespace Store

/-- The type of a handle's class down to `depth` bound classes below each other. -/
def unfold (s : Store) : Nat → Handle → Ty
  | depth, x =>
    match s.term? x, depth with
    | some t, depth + 1 => t.toTy (s.unfold depth)
    | _, _ => .var (s.find x)

/-- The type of a handle's class, an unbound class being named by its root. No class lies below
itself, so there are at most as many levels as bound classes. -/
def resolve (s : Store) (x : Handle) : Ty := s.unfold s.terms.size x

/-- The type of a term. -/
def expand (s : Store) (t : Term) : Ty := t.toTy s.resolve

end Store

end TypeInference
