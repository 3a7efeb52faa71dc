import TypeInference.Tree.Basic

/-!
# Nodes in pre-order

The nodes of a tree as one list: a parent before its names and children, children from left to
right. Numbering follows this list.
-/

set_option autoImplicit false

namespace TypeInference

/-- A node by itself: what the table records of it, and the handle it carries. -/
structure Node extends NodeInfo where
  id : Option Handle
deriving DecidableEq, Repr, Inhabited

/-- The node of the given kind that carries the mark. -/
def Mark.node (m : Mark) (kind : NodeKind) (name : Option String) : Node :=
  { kind, span := m.span, name, id := m.id }

/-- The named node of the given kind. -/
def Binding.node (b : Binding) (kind : NodeKind) : Node := b.mark.node kind (some b.name)

namespace Expr

/-- The topmost node of an expression. -/
def node (e : Expr) : Node := e.mark.node e.kind e.name?

mutual

/-- The nodes of an expression, before those of its operands. -/
def nodes : Expr → List Node
  | e@(binary _ _ lhs rhs) => e.node :: (lhs.nodes ++ rhs.nodes)
  | e@(call _ callee args) => e.node :: (callee.nodes ++ nodesAll args)
  | e@(alloc _ operand) | e@(deref _ operand) | e@(access _ operand _) => e.node :: operand.nodes
  | e@(record _ fields) => e.node :: nodesFields fields
  | e@(num ..) | e@(var ..) | e@(input ..) | e@(addrOf ..) | e@(null ..) => [e.node]

/-- The nodes of a list of expressions. -/
def nodesAll : List Expr → List Node
  | [] => []
  | e :: rest => e.nodes ++ nodesAll rest

/-- The nodes of the fields of a record literal, each before its initialiser. -/
def nodesFields : List (Binding × Expr) → List Node
  | [] => []
  | (b, e) :: rest => b.node .field :: (e.nodes ++ nodesFields rest)

end

end Expr

namespace Stmt

/-- The topmost node of a statement. -/
def node (s : Stmt) : Node := s.mark.node s.kind none

mutual

/-- The nodes of a statement, before those of its names and parts. -/
def nodes : Stmt → List Node
  | s@(declare _ names) => s.node :: names.map (·.node .localVar)
  | s@(block _ body) => s.node :: nodesAll body
  | s@(assign _ lhs rhs) => s.node :: (lhs.nodes ++ rhs.nodes)
  | s@(loop _ cond body) => s.node :: (cond.nodes ++ body.nodes)
  | s@(branch _ cond yes none) => s.node :: (cond.nodes ++ yes.nodes)
  | s@(branch _ cond yes (some no)) => s.node :: (cond.nodes ++ yes.nodes ++ no.nodes)
  | s@(output _ arg) | s@(error _ arg) | s@(ret _ arg) => s.node :: arg.nodes

/-- The nodes of a sequence of statements. -/
def nodesAll : List Stmt → List Node
  | [] => []
  | s :: rest => s.nodes ++ nodesAll rest

end

end Stmt

/-- The nodes of a function: its own, its formals, its body. -/
def Function.nodes (f : Function) : List Node :=
  f.mark.node .function (some f.name) :: (f.formals.map (·.node .formal) ++ Stmt.nodesAll f.body)

/-- The nodes of a program: its own, then those of each function. -/
def Program.nodes (p : Program) : List Node :=
  p.mark.node .program none :: p.functions.flatMap Function.nodes

end TypeInference
