import TypeInference.Node

/-!
# Program trees

Expressions, statements, functions and programs. Each node carries a mark: its place in the
source and the handle it has been given, if any.
-/

set_option autoImplicit false

namespace TypeInference

/-- What every node carries besides its content. -/
structure Mark where
  id : Option Handle := none
  span : Span := {}
deriving DecidableEq, Repr, Inhabited

/-- A named node: a formal, a local or a field of a record literal. -/
structure Binding where
  name : String
  mark : Mark := {}
deriving DecidableEq, Repr, Inhabited

/-- Binary operators. -/
inductive BinOp
  | add | sub | mul | div | gt | eq
deriving DecidableEq, Repr, Inhabited

/-- Equality compares operands of any one type; all other operators take integers. -/
def BinOp.isPolymorphic : BinOp → Bool
  | .eq => true
  | _ => false

/-- Expressions. -/
inductive Expr
  | num (mark : Mark) (value : Int)
  | var (mark : Mark) (name : String)
  | binary (mark : Mark) (op : BinOp) (lhs rhs : Expr)
  | call (mark : Mark) (callee : Expr) (args : List Expr)
  | input (mark : Mark)
  | alloc (mark : Mark) (init : Expr)
  | addrOf (mark : Mark) (name : String)
  | deref (mark : Mark) (pointer : Expr)
  | null (mark : Mark)
  | record (mark : Mark) (fields : List (Binding × Expr))
  | access (mark : Mark) (record : Expr) (field : String)
deriving Repr, Inhabited

namespace Expr

/-- The mark of the topmost node. -/
def mark : Expr → Mark
  | num m _ | var m _ | binary m _ _ _ | call m _ _ | input m | alloc m _ | addrOf m _
  | deref m _ | null m | record m _ | access m _ _ => m

/-- The place of the whole expression. -/
def span (e : Expr) : Span := e.mark.span

/-- The kind of the topmost node. -/
def kind : Expr → NodeKind
  | num .. => .num
  | var .. => .var
  | binary .. => .binary
  | call .. => .call
  | input .. => .input
  | alloc .. => .alloc
  | addrOf .. => .addrOf
  | deref .. => .deref
  | null .. => .null
  | record .. => .record
  | access .. => .access

/-- The name that a variable or an address-of node refers to. -/
def name? : Expr → Option String
  | var _ x | addrOf _ x => some x
  | _ => none

end Expr

/-- Statements; a declaration puts its names in scope for the whole function. -/
inductive Stmt
  | declare (mark : Mark) (names : List Binding)
  | block (mark : Mark) (body : List Stmt)
  | assign (mark : Mark) (lhs rhs : Expr)
  | loop (mark : Mark) (cond : Expr) (body : Stmt)
  | branch (mark : Mark) (cond : Expr) (yes : Stmt) (no : Option Stmt)
  | output (mark : Mark) (arg : Expr)
  | error (mark : Mark) (arg : Expr)
  | ret (mark : Mark) (arg : Expr)
deriving Repr, Inhabited

namespace Stmt

/-- The mark of the topmost node. -/
def mark : Stmt → Mark
  | declare m _ | block m _ | assign m _ _ | loop m _ _ | branch m _ _ _ | output m _ | error m _
  | ret m _ => m

/-- The kind of the topmost node. -/
def kind : Stmt → NodeKind
  | declare .. => .declare
  | block .. => .block
  | assign .. => .assign
  | loop .. => .loop
  | branch .. => .branch
  | output .. => .output
  | error .. => .error
  | ret .. => .ret

mutual

/-- The names a statement declares at any depth, in source order. -/
def locals : Stmt → List Binding
  | declare _ names => names
  | block _ body => localsAll body
  | loop _ _ body => body.locals
  | branch _ _ yes none => yes.locals
  | branch _ _ yes (some no) => yes.locals ++ no.locals
  | assign .. | output .. | error .. | ret .. => []

/-- The names that a sequence of statements declares at any depth, in source order. -/
def localsAll : List Stmt → List Binding
  | [] => []
  | s :: rest => s.locals ++ localsAll rest

end

end Stmt

/-- A function with its formals and its body. -/
structure Function where
  name : String
  mark : Mark := {}
  formals : List Binding := []
  body : List Stmt := []
deriving Repr, Inhabited

/-- The names declared anywhere in the body; all of them are visible in all of it. -/
def Function.locals (f : Function) : List Binding := Stmt.localsAll f.body

/-- A program is a list of functions that may call each other in any order. -/
structure Program where
  mark : Mark := {}
  functions : List Function := []
deriving Repr, Inhabited

namespace Program

/-- The program of the given functions, spanning all of them. -/
def ofFunctions (functions : List Function) : Program where
  mark := { span := (Span.mergeAll? (functions.map (·.mark.span))).getD {} }
  functions := functions

/-- The first function of that name. -/
def function? (program : Program) (name : String) : Option Function :=
  program.functions.find? (·.name == name)

end Program

end TypeInference
