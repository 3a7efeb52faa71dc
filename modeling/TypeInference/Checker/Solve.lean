import TypeInference.Checker.Basic

/-!
# Solving constraints

Each constraint acts on the store. Where the source asks for a pointer, a record or a function, a
type known to be something else is refused with a reason of its own. An access to a record that is
still unknown is put off.
-/

set_option autoImplicit false

namespace TypeInference

namespace Checker

/-- The text of a call as the type it asks of its callee. -/
def callText (s : Store) (args : List Handle) (result : Handle) : String :=
  "(" ++ ",".intercalate (args.map s.render) ++ ") -> " ++ s.render result

/-- A call: a callee known to be a function must take as many arguments as are given. -/
def solveCall (callee : Handle) (args : List Handle) (result : Handle) (span : Span) :
    CheckM Unit := do
  let s := (← get).store
  match s.term? callee with
  | some (.function params _) =>
    if params.length = args.length then bindAt span callee (.function args result)
    else
      refuseAt span (.arity params.length args.length) callee result (s.render callee)
        (callText s args result)
  | none => bindAt span callee (.function args result)
  | some _ => refuseAt span .notFunction callee result "function" (s.render callee)

/-- A dereference: what is known must be a pointer. -/
def solveDeref (pointer target : Handle) (span : Span) : CheckM Unit := do
  let s := (← get).store
  match s.term? pointer with
  | some (.pointer _) | none => bindAt span pointer (.pointer target)
  | some _ => refuseAt span .notPointer pointer target "pointer" (s.render pointer)

/-- An access to a field of what is known. -/
def solveAccess (a : Access) (known : Term) : CheckM Unit := do
  let s := (← get).store
  match known with
  | .record fields =>
    match fields.lookup a.field with
    | some field => unifyAt a.span a.node field
    | none =>
      refuseAt a.span (.missingField a.field) a.record a.node s!"record with field `{a.field}`"
        (s.render a.record)
  | _ => refuseAt a.span .notRecord a.record a.node "record" (s.render a.record)

/-- Solve one constraint. -/
def solve : Constraint → CheckM Unit
  | .bind node term span => bindAt span node term
  | .unify left right span => unifyAt span left right
  | .call callee args result span => solveCall callee args result span
  | .deref pointer target span => solveDeref pointer target span
  | .null node span => do bindAt span node (.pointer (← mint span))
  | .access a => do
    match (← get).store.term? a.record with
    | some known => solveAccess a known
    | none => modify fun c => { c with waiting := c.waiting ++ [a] }
  | .repeatedField record field name span =>
    refuseAt span (.duplicateField name) record field "record with unique field names"
      (Reason.duplicateField name).text
  | .reject error => throw error

/-- Solve constraints in order up to the first that cannot be met. -/
def solveAll : List Constraint → CheckM Unit
  | [] => pure ()
  | constraint :: rest => do
    solve constraint
    solveAll rest

end Checker

end TypeInference
