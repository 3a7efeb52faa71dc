import TypeInference.Checker.Solve

/-!
# Checking a program

All functions are declared before any body is checked, so calls may come before the definition of
the callee. The names of a function are in scope in its whole body.
-/

set_option autoImplicit false

namespace TypeInference

namespace Checker

/-- Constrain an expression by itself, and give its handle. -/
def checkExpr (e : Expr) : CheckM Handle := do
  solveAll (e.constraints (← get).env)
  return e.handle

/-- Constrain a statement of the function entered last, whose result has the type of `result`. -/
def checkStmt (result : Handle) (s : Stmt) : CheckM Unit := do
  solveAll (s.constraints (← get).env result)

/-- The return slot of a function. The first time it is asked for, it is minted and the function
is bound to its type. -/
def signature (f : Function) : CheckM Handle := do
  let id ← require f.mark .function
  match (← get).returns[id]? with
  | some result => return result
  | none =>
    let formals ← f.formals.mapM fun b => require b.mark .formal
    let result ← mint f.mark.span
    modify fun c => { c with returns := c.returns.insert id result }
    bindAt f.mark.span id (.function formals result)
    return result

/-- Declare a function by its name. -/
def declareFunction (f : Function) : CheckM Unit := do
  let id ← require f.mark .function
  if (← get).functions.contains f.name then
    throw (.duplicateName f.name id f.mark.span)
  modify fun c => { c with functions := c.functions.insert f.name id }
  discard (signature f)

/-- Declare all functions of a program. -/
def declareFunctions (p : Program) : CheckM Unit := p.functions.forM declareFunction

/-- Put a name in scope. A name that is declared twice means its later declaration from then on. -/
def declare (kind : NodeKind) (b : Binding) : CheckM Unit := do
  let id ← require b.mark kind
  let known := (← get).scope.contains b.name
  modify fun c => { c with scope := c.scope.insert b.name id }
  if known then throw (.duplicateName b.name id b.mark.span)

/-- Make the formals and locals of a function the names in scope, and give its return slot. -/
def enterFunction (f : Function) : CheckM Handle := do
  emit (.entered f.name)
  let result ← signature f
  modify fun c => { c with scope := ∅ }
  f.formals.forM (declare .formal)
  f.locals.forM (declare .localVar)
  return result

/-- Check the body of a function. -/
def checkFunction (f : Function) : CheckM Unit := do
  let result ← enterFunction f
  f.body.forM (checkStmt result)

/-- Declare every function, then check the bodies in order. -/
def checkProgram (p : Program) : CheckM Unit := do
  discard (require p.mark .program)
  declareFunctions p
  p.functions.forM checkFunction

end Checker

end TypeInference
