import TypeInference.Constraint.Basic
import TypeInference.Tree.Basic

/-!
# The constraints of a tree

Each expression and statement yields its constraints in source order, those of the operands first.
A fault of the tree stands in the list as a constraint that cannot be met, so nothing after it is
ever looked at.
-/

set_option autoImplicit false

namespace TypeInference

/-- The handles of the names that are visible at a place. -/
abbrev Env := String → Option Handle

namespace Mark

/-- The handle of a numbered node. For a node without one the value means nothing, and the
constraints of the node end in its rejection before anything names it. -/
def handle (m : Mark) : Handle := m.id.getD 0

/-- The constraints of a node that is numbered; one that is not is a fault of the tree. -/
def constrain (m : Mark) (kind : NodeKind) (constraints : Handle → List Constraint) :
    List Constraint :=
  match m.id with
  | some id => constraints id
  | none => [.reject (.unassigned kind m.span)]

end Mark

/-- The constraints of a use of a name, which is a fault of the tree when nothing declares it. -/
def Env.constrain (env : Env) (name : String) (node : Handle) (span : Span)
    (constraints : Handle → List Constraint) : List Constraint :=
  match env name with
  | some declared => constraints declared
  | none => [.reject (.unboundName name node span)]

namespace Expr

/-- The handle of a numbered expression. -/
def handle (e : Expr) : Handle := e.mark.handle

/-- The fields of a record literal with the handles of their nodes. -/
def fieldHandles (fields : List (Binding × Expr)) : List (String × Handle) :=
  fields.map fun (b, _) => (b.name, b.mark.handle)

mutual

/-- The constraints of an expression. -/
def constraints (env : Env) : Expr → List Constraint
  | num m _ => m.constrain .num fun id => [.bind id .int m.span]
  | input m => m.constrain .input fun id => [.bind id .int m.span]
  | var m name => m.constrain .var fun id =>
    env.constrain name id m.span fun declared => [.unify id declared m.span]
  | binary m op lhs rhs => m.constrain .binary fun id =>
    lhs.constraints env ++ rhs.constraints env ++
      (if op.isPolymorphic then [.unify lhs.handle rhs.handle m.span]
        else [.bind lhs.handle .int lhs.span, .bind rhs.handle .int rhs.span]) ++
      [.bind id .int m.span]
  | call m callee args => m.constrain .call fun id =>
    callee.constraints env ++ constraintsAll env args ++
      [.call callee.handle (args.map handle) id m.span]
  | alloc m init => m.constrain .alloc fun id =>
    init.constraints env ++ [.bind id (.pointer init.handle) m.span]
  | addrOf m name => m.constrain .addrOf fun id =>
    env.constrain name id m.span fun declared => [.bind id (.pointer declared) m.span]
  | deref m pointer => m.constrain .deref fun id =>
    pointer.constraints env ++ [.deref pointer.handle id m.span]
  | null m => m.constrain .null fun id => [.null id m.span]
  | record m fields => m.constrain .record fun id =>
    constraintsFields env id [] fields ++ [.bind id (.record (fieldHandles fields)) m.span]
  | access m base field => m.constrain .access fun id =>
    base.constraints env ++ [.access { node := id, record := base.handle, field, span := m.span }]

/-- The constraints of the arguments of a call. -/
def constraintsAll (env : Env) : List Expr → List Constraint
  | [] => []
  | e :: rest => e.constraints env ++ constraintsAll env rest

/-- The constraints of the fields of a record literal; `seen` are the names of earlier fields. -/
def constraintsFields (env : Env) (record : Handle) (seen : List String) :
    List (Binding × Expr) → List Constraint
  | [] => []
  | (b, init) :: rest => b.mark.constrain .field fun id =>
    if b.name ∈ seen then [.repeatedField record id b.name b.mark.span]
    else
      init.constraints env ++ [.unify id init.handle b.mark.span] ++
        constraintsFields env record (b.name :: seen) rest

end

end Expr

namespace Stmt

mutual

/-- The constraints of a statement of a function whose results have the type of `result`. -/
def constraints (env : Env) (result : Handle) : Stmt → List Constraint
  | declare .. => []
  | block _ body => constraintsAll env result body
  | assign m lhs rhs =>
    lhs.constraints env ++ rhs.constraints env ++ [.unify lhs.handle rhs.handle m.span]
  | loop _ cond body =>
    cond.constraints env ++ [.bind cond.handle .int cond.span] ++ body.constraints env result
  | branch _ cond yes none =>
    cond.constraints env ++ [.bind cond.handle .int cond.span] ++ yes.constraints env result
  | branch _ cond yes (some no) =>
    cond.constraints env ++ [.bind cond.handle .int cond.span] ++ yes.constraints env result ++
      no.constraints env result
  | output m arg | error m arg => arg.constraints env ++ [.bind arg.handle .int m.span]
  | ret m arg => arg.constraints env ++ [.unify arg.handle result m.span]

/-- The constraints of a sequence of statements. -/
def constraintsAll (env : Env) (result : Handle) : List Stmt → List Constraint
  | [] => []
  | s :: rest => s.constraints env result ++ constraintsAll env result rest

end

end Stmt

end TypeInference
