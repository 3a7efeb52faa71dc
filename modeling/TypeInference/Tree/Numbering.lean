import TypeInference.Tree.Preorder

/-!
# Numbering

Numbering gives the nodes of a tree the handles 0, 1, 2, … in pre-order and records each of them
in a node table. A tree that carries a handle anywhere is refused as a whole.
-/

set_option autoImplicit false

namespace TypeInference

/-- Give a mark the handle `k`. -/
def Mark.number (k : Handle) (m : Mark) : Mark := { m with id := some k }

/-- Give a named node the handle `k`. -/
def Binding.number (k : Handle) (b : Binding) : Binding := { b with mark := b.mark.number k }

/-- Give named nodes the handles from `k` on. -/
def Binding.numberAll (k : Handle) : List Binding → List Binding
  | [] => []
  | b :: rest => b.number k :: numberAll (k + 1) rest

namespace Expr

mutual

/-- The number of nodes of an expression. -/
def size : Expr → Nat
  | binary _ _ lhs rhs => 1 + lhs.size + rhs.size
  | call _ callee args => 1 + callee.size + sizeAll args
  | alloc _ operand | deref _ operand | access _ operand _ => 1 + operand.size
  | record _ fields => 1 + sizeFields fields
  | num .. | var .. | input .. | addrOf .. | null .. => 1

/-- The number of nodes of a list of expressions. -/
def sizeAll : List Expr → Nat
  | [] => 0
  | e :: rest => e.size + sizeAll rest

/-- The number of nodes of the fields of a record literal. -/
def sizeFields : List (Binding × Expr) → Nat
  | [] => 0
  | (_, e) :: rest => 1 + e.size + sizeFields rest

end

mutual

theorem length_nodes : ∀ e : Expr, e.nodes.length = e.size
  | num .. | var .. | input .. | addrOf .. | null .. => by simp [nodes, size]
  | binary _ _ lhs rhs => by
    simp only [nodes, size, List.length_cons, List.length_append, length_nodes lhs,
      length_nodes rhs]
    omega
  | call _ callee args => by
    simp only [nodes, size, List.length_cons, List.length_append, length_nodes callee,
      length_nodesAll args]
    omega
  | alloc _ operand | deref _ operand | access _ operand _ => by
    simp only [nodes, size, List.length_cons, length_nodes operand]
    omega
  | record _ fields => by
    simp only [nodes, size, List.length_cons, length_nodesFields fields]
    omega

private theorem length_nodesAll : ∀ es : List Expr, (nodesAll es).length = sizeAll es
  | [] => rfl
  | e :: rest => by
    simp only [nodesAll, sizeAll, List.length_append, length_nodes e, length_nodesAll rest]

private theorem length_nodesFields : ∀ fields : List (Binding × Expr),
    (nodesFields fields).length = sizeFields fields
  | [] => rfl
  | (_, e) :: rest => by
    simp only [nodesFields, sizeFields, List.length_cons, List.length_append, length_nodes e,
      length_nodesFields rest]
    omega

end

mutual

/-- Number the nodes of an expression from `k` on. -/
def number (k : Handle) : Expr → Expr
  | num m v => num (m.number k) v
  | var m x => var (m.number k) x
  | binary m op lhs rhs =>
    binary (m.number k) op (lhs.number (k + 1)) (rhs.number (k + 1 + lhs.size))
  | call m callee args =>
    call (m.number k) (callee.number (k + 1)) (numberAll (k + 1 + callee.size) args)
  | input m => input (m.number k)
  | alloc m e => alloc (m.number k) (e.number (k + 1))
  | addrOf m x => addrOf (m.number k) x
  | deref m e => deref (m.number k) (e.number (k + 1))
  | null m => null (m.number k)
  | record m fields => record (m.number k) (numberFields (k + 1) fields)
  | access m e field => access (m.number k) (e.number (k + 1)) field

/-- Number the nodes of a list of expressions from `k` on. -/
def numberAll (k : Handle) : List Expr → List Expr
  | [] => []
  | e :: rest => e.number k :: numberAll (k + e.size) rest

/-- Number the fields of a record literal and their initialisers from `k` on. -/
def numberFields (k : Handle) : List (Binding × Expr) → List (Binding × Expr)
  | [] => []
  | (b, e) :: rest => (b.number k, e.number (k + 1)) :: numberFields (k + 1 + e.size) rest

end

end Expr

namespace Stmt

mutual

/-- The number of nodes of a statement. -/
def size : Stmt → Nat
  | declare _ names => 1 + names.length
  | block _ body => 1 + sizeAll body
  | assign _ lhs rhs => 1 + lhs.size + rhs.size
  | loop _ cond body => 1 + cond.size + body.size
  | branch _ cond yes none => 1 + cond.size + yes.size
  | branch _ cond yes (some no) => 1 + cond.size + yes.size + no.size
  | output _ arg | error _ arg | ret _ arg => 1 + arg.size

/-- The number of nodes of a sequence of statements. -/
def sizeAll : List Stmt → Nat
  | [] => 0
  | s :: rest => s.size + sizeAll rest

end

mutual

theorem length_nodes : ∀ s : Stmt, s.nodes.length = s.size
  | declare _ names => by simp [nodes, size, Nat.add_comm]
  | block _ body => by
    simp only [nodes, size, List.length_cons, length_nodesAll body]
    omega
  | assign _ lhs rhs => by
    simp only [nodes, size, List.length_cons, List.length_append, Expr.length_nodes]
    omega
  | loop _ cond body => by
    simp only [nodes, size, List.length_cons, List.length_append, Expr.length_nodes,
      length_nodes body]
    omega
  | branch _ cond yes none => by
    simp only [nodes, size, List.length_cons, List.length_append, Expr.length_nodes,
      length_nodes yes]
    omega
  | branch _ cond yes (some no) => by
    simp only [nodes, size, List.length_cons, List.length_append, Expr.length_nodes,
      length_nodes yes, length_nodes no]
    omega
  | output _ arg | error _ arg | ret _ arg => by
    simp only [nodes, size, List.length_cons, Expr.length_nodes]
    omega

private theorem length_nodesAll : ∀ body : List Stmt, (nodesAll body).length = sizeAll body
  | [] => rfl
  | s :: rest => by
    simp only [nodesAll, sizeAll, List.length_append, length_nodes s, length_nodesAll rest]

end

mutual

/-- Number the nodes of a statement from `k` on. -/
def number (k : Handle) : Stmt → Stmt
  | declare m names => declare (m.number k) (Binding.numberAll (k + 1) names)
  | block m body => block (m.number k) (numberAll (k + 1) body)
  | assign m lhs rhs => assign (m.number k) (lhs.number (k + 1)) (rhs.number (k + 1 + lhs.size))
  | loop m cond body => loop (m.number k) (cond.number (k + 1)) (body.number (k + 1 + cond.size))
  | branch m cond yes none =>
    branch (m.number k) (cond.number (k + 1)) (yes.number (k + 1 + cond.size)) none
  | branch m cond yes (some no) =>
    branch (m.number k) (cond.number (k + 1)) (yes.number (k + 1 + cond.size))
      (some (no.number (k + 1 + cond.size + yes.size)))
  | output m arg => output (m.number k) (arg.number (k + 1))
  | error m arg => error (m.number k) (arg.number (k + 1))
  | ret m arg => ret (m.number k) (arg.number (k + 1))

/-- Number a sequence of statements from `k` on. -/
def numberAll (k : Handle) : List Stmt → List Stmt
  | [] => []
  | s :: rest => s.number k :: numberAll (k + s.size) rest

end

end Stmt

namespace Function

/-- The number of nodes of a function. -/
def size (f : Function) : Nat := 1 + f.formals.length + Stmt.sizeAll f.body

theorem length_nodes (f : Function) : f.nodes.length = f.size := by
  simp only [nodes, size, List.length_cons, List.length_append, List.length_map,
    Stmt.length_nodesAll]
  omega

/-- Number the nodes of a function from `k` on. -/
def number (k : Handle) (f : Function) : Function where
  name := f.name
  mark := f.mark.number k
  formals := Binding.numberAll (k + 1) f.formals
  body := Stmt.numberAll (k + 1 + f.formals.length) f.body

/-- Number a list of functions from `k` on. -/
def numberAll (k : Handle) : List Function → List Function
  | [] => []
  | f :: rest => f.number k :: numberAll (k + f.size) rest

end Function

/-- The refusal to number a tree in which a node carries a handle already. -/
structure AlreadyAssigned where
  kind : NodeKind
  id : Handle
  span : Span
deriving DecidableEq, Repr, Inhabited

/-- How the refusal is worded. -/
def AlreadyAssigned.message (fault : AlreadyAssigned) : String :=
  s!"{fault.kind.text} at {fault.span.text} already has node #{fault.id}"

/-- The fault of numbering a node that carries a handle. -/
def Node.assigned? (n : Node) : Option AlreadyAssigned :=
  n.id.map fun id => { kind := n.kind, id, span := n.span }

namespace Program

/-- Number the nodes of a program from 0 on, whatever handles it carries. -/
def number (p : Program) : Program where
  mark := p.mark.number 0
  functions := Function.numberAll 1 p.functions

/-- The rows of a program's nodes in pre-order. -/
def table (p : Program) : NodeTable where
  rows := (p.nodes.map Node.toNodeInfo).toArray

/-- Number a program that carries no handle, and otherwise refuse the first node that does. -/
def assignIds (p : Program) : Except AlreadyAssigned (Program × NodeTable) :=
  match p.nodes.findSome? Node.assigned? with
  | some fault => .error fault
  | none => .ok (p.number, p.table)

end Program

end TypeInference
