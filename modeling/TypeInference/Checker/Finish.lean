import TypeInference.Checker.Program
import TypeInference.Store.Expand

/-!
# Finishing a check

The accesses that wait are retried until no further record becomes known. Then every typed node
must have a type: what is still unknown is refused or taken to be an integer.
-/

set_option autoImplicit false

namespace TypeInference

/-- What becomes of a typed node whose type is not determined. -/
inductive Policy
  | reject | defaultToInt
deriving DecidableEq, Repr, Inhabited

/-- The answer of a successful check, from which types are read on demand. -/
structure Typing where
  nodes : NodeTable
  store : Store
  functions : Std.TreeMap String Handle
deriving Inhabited

namespace Typing

/-- The type of a typed node. -/
def typeOf (t : Typing) (h : Handle) : Option Ty :=
  if (t.nodes.get h).kind.isTyped then some (t.store.resolve h) else none

/-- The handles of nodes that have a type, in handle order. -/
def typed (t : Typing) : List Handle := t.nodes.typed

/-- The type of the function of that name. -/
def functionType (t : Typing) (name : String) : Option Ty := t.functions[name]?.map t.store.resolve

end Typing

namespace Checker

/-- Retry accesses in order, and give those that still wait. -/
def retry : List Access → CheckM (List Access)
  | [] => pure []
  | a :: rest => do
    match (← get).store.term? a.record with
    | some known =>
      solveAccess a known
      retry rest
    | none => return a :: (← retry rest)

/-- Retry accesses until none is left or a round settles none, and give those that still wait. -/
def settle (waiting : List Access) : CheckM (List Access) := do
  let left ← retry waiting
  if left.length < waiting.length then settle left else return left
termination_by waiting.length

/-- Settle all accesses that wait. The record of the first that cannot be settled is unresolved. -/
def settleAll : CheckM Unit := do
  let left ← settle (← get).waiting
  modify fun c => { c with waiting := left }
  match left with
  | [] => pure ()
  | a :: _ => throw ((← get).unresolved a.record)

/-- Refuse the first node whose type is not determined. -/
def rejectUnresolved (typed : List Handle) : CheckM Unit := do
  let c ← get
  match typed.find? fun h => !(c.store.unresolvedRoots h).isEmpty with
  | some h => throw (c.unresolved h)
  | none => pure ()

/-- Take the unknown parts of a node's type to be integers. -/
def defaultNode (h : Handle) : CheckM Unit := do
  let c ← get
  (c.store.unresolvedRoots h).forM fun root => do
    emit (.defaulted root)
    bindAt (c.nodes.get h).span root .int

/-- Settle what waits, apply the policy to what is unknown, and give the answer. -/
def finish (policy : Policy) : CheckM Typing := do
  settleAll
  let typed := (← get).nodes.typed
  match policy with
  | .reject => rejectUnresolved typed
  | .defaultToInt => typed.forM defaultNode
  emit (.finished typed.length)
  let c ← get
  return { nodes := c.nodes, store := c.store, functions := c.functions }

/-- Check a whole program and finish. -/
def checkAll (policy : Policy) (p : Program) : CheckM Typing := do
  checkProgram p
  finish policy

end Checker

/-- The typing of a numbered program, or the first error in it. -/
def check (policy : Policy) (p : Program) (nodes : NodeTable) : Except TypeError Typing :=
  match (Checker.checkAll policy p).run { nodes } with
  | .ok typing _ => .ok typing
  | .error error _ => .error error

end TypeInference
