import Std.Data.TreeMap
import TypeInference.Term

/-!
# The store

The store keeps handles in classes of equal types. A handle points at a parent, a handle without
one is the root of its class, and a root may be bound to a term. A handle that was never mentioned
is a class of its own.
-/

set_option autoImplicit false

namespace TypeInference

/-- Classes of handles as a forest, with the terms bound to roots. A root that gets a parent keeps
its term in the map, where nothing reads it any more. -/
structure Store where
  parents : Std.TreeMap Handle Handle := ∅
  terms : Std.TreeMap Handle Term := ∅
deriving Inhabited

namespace Store

/-- Follow at most `steps` parents upwards from a handle. -/
def climb (s : Store) : Nat → Handle → Handle
  | 0, x => x
  | steps + 1, x =>
    match s.parents[x]? with
    | none => x
    | some parent => s.climb steps parent

/-- The root of a handle's class. A path without repetition has at most as many steps as there are
handles with a parent. -/
def find (s : Store) (x : Handle) : Handle := s.climb s.parents.size x

/-- Two handles denote one type. -/
def sameClass (s : Store) (x y : Handle) : Bool := s.find x == s.find y

/-- The term bound to a handle's class, or nothing while the class is unknown. -/
def term? (s : Store) (x : Handle) : Option Term := s.terms[s.find x]?

/-- Put the class rooted at `child` below `root`. -/
def link (s : Store) (child root : Handle) : Store :=
  { s with parents := s.parents.insert child root }

/-- Bind a root to a term. -/
def assign (s : Store) (root : Handle) (t : Term) : Store :=
  { s with terms := s.terms.insert root t }

@[simp]
theorem parents_link (s : Store) (child root : Handle) :
    (s.link child root).parents = s.parents.insert child root := rfl

@[simp]
theorem terms_link (s : Store) (child root : Handle) : (s.link child root).terms = s.terms := rfl

@[simp]
private theorem parents_assign (s : Store) (root : Handle) (t : Term) :
    (s.assign root t).parents = s.parents := rfl

@[simp]
theorem terms_assign (s : Store) (root : Handle) (t : Term) :
    (s.assign root t).terms = s.terms.insert root t := rfl

/-- Roots depend on the forest only. -/
@[simp]
theorem find_assign (s : Store) (root : Handle) (t : Term) (x : Handle) :
    (s.assign root t).find x = s.find x := by
  have climbs : ∀ steps y, (s.assign root t).climb steps y = s.climb steps y := by
    intro steps
    induction steps with
    | zero => intro y; rfl
    | succ steps ih => intro y; simp only [climb, parents_assign, ih]
  exact climbs _ _

end Store

end TypeInference
