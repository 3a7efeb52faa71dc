import Std.Data.TreeSet
import TypeInference.Store.Basic

/-!
# Reachable classes

The classes inside a type, found depth first: from a class through the handles of its term. Two
questions are answered by them: which unknown classes a type depends on, and whether a term leads
back to a class, so that binding it there would make a type contain itself.
-/

set_option autoImplicit false

namespace TypeInference

/-- What a walk has met: all roots, and the unbound ones among them in the order of their first
visit. -/
structure Visit where
  seen : Std.TreeSet Handle := ∅
  unbound : Array Handle := #[]
deriving Inhabited

namespace Store

/-- Visit the class of a handle and all classes inside it that were not met before. Each level of
the walk meets a bound root for the first time, so `depth` need not exceed their number. -/
def visit (s : Store) : Nat → Visit → Handle → Visit
  | depth, v, x =>
    let root := s.find x
    if v.seen.contains root then v
    else
      match s.terms[root]? with
      | none => { seen := v.seen.insert root, unbound := v.unbound.push root }
      | some t =>
        match depth with
        | 0 => v
        | depth + 1 => t.children.foldl (s.visit depth) { v with seen := v.seen.insert root }

/-- Visit the classes of the given handles, one handle after the other. -/
def reach (s : Store) (xs : List Handle) : Visit := xs.foldl (s.visit s.terms.size) {}

/-- The roots of the unbound classes inside a handle's type, its own included, in the order in
which a walk from left to right meets them. -/
def unresolvedRoots (s : Store) (x : Handle) : List Handle := (s.reach [x]).unbound.toList

/-- The class rooted at `root` occurs strictly inside the term. -/
def occurs (s : Store) (root : Handle) (t : Term) : Bool := (s.reach t.children).seen.contains root

end Store

end TypeInference
