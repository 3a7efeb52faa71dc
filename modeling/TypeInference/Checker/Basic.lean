import Std.Data.TreeMap
import TypeInference.Constraint.Generate
import TypeInference.Store.Unify

/-!
# The checker

A checker works through one program with one store. It knows the functions declared so far, the
return slots of their signatures, the names in scope and the field accesses that still wait for
their record to become known. After an error it stands as the error left it.
-/

set_option autoImplicit false

namespace TypeInference

/-- The state of a check. -/
structure Checker where
  nodes : NodeTable
  store : Store := {}
  /-- The handle of each declared function, by name. -/
  functions : Std.TreeMap String Handle := ∅
  /-- The handle of the result of each function that has a signature, by the function's handle. -/
  returns : Std.TreeMap Handle Handle := ∅
  /-- Formals and locals of the function entered last. -/
  scope : Std.TreeMap String Handle := ∅
  /-- Accesses to fields of records that are still unknown, in source order. -/
  waiting : List Access := []
  log : Array Event := #[]
deriving Inhabited

/-- Steps of a check: each either succeeds or ends with an error, and leaves a checker both ways. -/
abbrev CheckM := EStateM TypeError Checker

namespace Checker

/-- Names mean formals and locals first, then functions. -/
def env (c : Checker) : Env := fun name => c.scope[name]?.or c.functions[name]?

/-- Add an event to the log. -/
def emit (event : Event) : CheckM Unit :=
  modify fun c => { c with log := c.log.push event }

/-- Take over the outcome of work on the store, placing its conflict in the source. -/
def absorb (span : Span) (work : Store → Report) : CheckM Unit := fun c =>
  let report := work c.store
  let c := { c with store := report.store, log := c.log ++ report.events }
  match report.conflict? with
  | none => .ok () c
  | some conflict => .error (.conflict conflict span) c

/-- Make two handles denote one type, as the source demands at a place. -/
def unifyAt (span : Span) (left right : Handle) : CheckM Unit := absorb span (·.unify left right)

/-- Make a handle denote the type of a term, as the source demands at a place. -/
def bindAt (span : Span) (node : Handle) (term : Term) : CheckM Unit :=
  absorb span (·.bind node term)

/-- Refuse a type that is not what the source asks for at a place. -/
def refuseAt {α : Type} (span : Span) (reason : Reason) (left right : Handle)
    (expected found : String) : CheckM α := do
  let conflict := .mismatch reason left right expected found
  emit (.clashed conflict span)
  throw (.conflict conflict span)

/-- The handle of a numbered node. -/
def require (m : Mark) (kind : NodeKind) : CheckM Handle :=
  match m.id with
  | some id => pure id
  | none => throw (.unassigned kind m.span)

/-- Mint a handle for a type that no node carries. -/
def mint (span : Span) : CheckM Handle :=
  modifyGet fun c => (c.nodes.next, { c with nodes := c.nodes.mint span })

/-- The error for a node whose type nothing determines. -/
def unresolved (c : Checker) (node : Handle) : TypeError :=
  let row := c.nodes.get node
  .unresolved node row.kind (c.store.render node) row.span

end Checker

end TypeInference
