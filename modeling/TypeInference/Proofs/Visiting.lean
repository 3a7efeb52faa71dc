import TypeInference.Proofs.Parts

/-!
# Visiting the nodes of a tree

A visit goes to the nodes of a tree in pre-order and leaves each of them with the handle that the
visit of this node gives. Nothing else in the tree can change.
-/

set_option autoImplicit false

namespace TypeInference

section Visit

variable {m : Type → Type} [Monad m] (f : Node → m (Option Handle))

/-- Visit the node that carries a mark. -/
def Mark.visit (kind : NodeKind) (name : Option String) (a : Mark) : m Mark :=
  return { a with id := ← f (a.node kind name) }

/-- Visit a named node. -/
def Binding.visit (kind : NodeKind) (b : Binding) : m Binding :=
  return { b with mark := ← b.mark.visit f kind (some b.name) }

/-- Visit named nodes of one kind. -/
def Binding.visitAll (kind : NodeKind) : List Binding → m (List Binding)
  | [] => return []
  | b :: rest => return (← b.visit f kind) :: (← visitAll kind rest)

namespace Expr

mutual

/-- Visit the nodes of an expression, its own first. -/
def visit : Expr → m Expr
  | num a v => return num (← a.visit f .num none) v
  | var a x => return var (← a.visit f .var (some x)) x
  | binary a op lhs rhs => return binary (← a.visit f .binary none) op (← visit lhs) (← visit rhs)
  | call a callee args => return call (← a.visit f .call none) (← visit callee) (← visitAll args)
  | input a => return input (← a.visit f .input none)
  | alloc a e => return alloc (← a.visit f .alloc none) (← visit e)
  | addrOf a x => return addrOf (← a.visit f .addrOf (some x)) x
  | deref a e => return deref (← a.visit f .deref none) (← visit e)
  | null a => return null (← a.visit f .null none)
  | record a fields => return record (← a.visit f .record none) (← visitFields fields)
  | access a e field => return access (← a.visit f .access none) (← visit e) field

/-- Visit the nodes of a list of expressions. -/
def visitAll : List Expr → m (List Expr)
  | [] => return []
  | e :: rest => return (← visit e) :: (← visitAll rest)

/-- Visit the fields of a record literal, each before its initialiser. -/
def visitFields : List (Binding × Expr) → m (List (Binding × Expr))
  | [] => return []
  | (b, e) :: rest => return (← b.visit f .field, ← visit e) :: (← visitFields rest)

end

end Expr

namespace Stmt

mutual

/-- Visit the nodes of a statement, its own first. -/
def visit : Stmt → m Stmt
  | declare a names =>
    return declare (← a.visit f .declare none) (← Binding.visitAll f .localVar names)
  | block a body => return block (← a.visit f .block none) (← visitAll body)
  | assign a lhs rhs => return assign (← a.visit f .assign none) (← lhs.visit f) (← rhs.visit f)
  | loop a cond body => return loop (← a.visit f .loop none) (← cond.visit f) (← visit body)
  | branch a cond yes none =>
    return branch (← a.visit f .branch none) (← cond.visit f) (← visit yes) none
  | branch a cond yes (some no) =>
    return branch (← a.visit f .branch none) (← cond.visit f) (← visit yes) (some (← visit no))
  | output a arg => return output (← a.visit f .output none) (← arg.visit f)
  | error a arg => return error (← a.visit f .error none) (← arg.visit f)
  | ret a arg => return ret (← a.visit f .ret none) (← arg.visit f)

/-- Visit the nodes of a sequence of statements. -/
def visitAll : List Stmt → m (List Stmt)
  | [] => return []
  | s :: rest => return (← visit s) :: (← visitAll rest)

end

end Stmt

/-- Visit the nodes of a function: its own, its formals, its body. -/
def Function.visit (g : Function) : m Function :=
  return { g with
    mark := ← g.mark.visit f .function (some g.name)
    formals := ← Binding.visitAll f .formal g.formals
    body := ← Stmt.visitAll f g.body }

/-- Visit the nodes of functions in turn. -/
def Function.visitAll : List Function → m (List Function)
  | [] => return []
  | g :: rest => return (← g.visit f) :: (← visitAll rest)

/-- Visit the nodes of a program, its own first. -/
def Program.visit (p : Program) : m Program :=
  return { p with
    mark := ← p.mark.visit f .program none
    functions := ← Function.visitAll f p.functions }

end Visit

/-- A visit of one of the nodes looks at it and gives it the handle that it has. -/
def KeepsIds {m : Type → Type} [Monad m] (f : Node → m (Option Handle)) (look : Node → m Unit)
    (nodes : List Node) : Prop :=
  ∀ n ∈ nodes, f n = do look n; return n.id

section Keep

variable {m : Type → Type} [Monad m] {f : Node → m (Option Handle)} {look : Node → m Unit}

@[simp]
private theorem keepsIds_cons {n : Node} {rest : List Node} :
    KeepsIds f look (n :: rest) ↔ (f n = do look n; return n.id) ∧ KeepsIds f look rest :=
  List.forall_mem_cons

@[simp]
private theorem keepsIds_append {nodes rest : List Node} :
    KeepsIds f look (nodes ++ rest) ↔ KeepsIds f look nodes ∧ KeepsIds f look rest :=
  List.forall_mem_append

variable [LawfulMonad m]

private theorem Mark.visit_of_keeps {a : Mark} {kind : NodeKind} {name : Option String}
    (keeps : f (a.node kind name) = do look (a.node kind name); return (a.node kind name).id) :
    a.visit f kind name = do look (a.node kind name); return a := by
  rw [visit, keeps, bind_assoc]
  simp only [pure_bind]
  rfl

private theorem Binding.visit_of_keeps {b : Binding} {kind : NodeKind}
    (keeps : f (b.node kind) = do look (b.node kind); return (b.node kind).id) :
    b.visit f kind = do look (b.node kind); return b := by
  rw [visit, Mark.visit_of_keeps keeps, bind_assoc]
  simp only [pure_bind]
  rfl

theorem Binding.visitAll_of_keeps {kind : NodeKind} : ∀ {bs : List Binding},
    KeepsIds f look (bs.map (·.node kind)) →
      visitAll f kind bs = do forM (bs.map (·.node kind)) look; return bs
  | [], _ => by simp [visitAll]
  | b :: rest, keeps => by
    rw [List.map_cons, keepsIds_cons] at keeps
    simp [visitAll, visit_of_keeps keeps.1, visitAll_of_keeps keeps.2]

namespace Expr

mutual

theorem visit_of_keeps : ∀ {e : Expr}, KeepsIds f look e.nodes →
    e.visit f = do forM e.nodes look; return e
  | num .., keeps | var .., keeps | input .., keeps | addrOf .., keeps | null .., keeps => by
    simp only [nodes, node, mark, kind, name?, keepsIds_cons] at keeps
    simp [visit, nodes, node, mark, kind, name?, Mark.visit_of_keeps keeps.1]
  | binary .., keeps => by
    simp only [nodes, node, mark, kind, name?, keepsIds_cons, keepsIds_append] at keeps
    simp [visit, nodes, node, mark, kind, name?, Mark.visit_of_keeps keeps.1,
      visit_of_keeps keeps.2.1, visit_of_keeps keeps.2.2]
  | call .., keeps => by
    simp only [nodes, node, mark, kind, name?, keepsIds_cons, keepsIds_append] at keeps
    simp [visit, nodes, node, mark, kind, name?, Mark.visit_of_keeps keeps.1,
      visit_of_keeps keeps.2.1, visitAll_of_keeps keeps.2.2]
  | alloc .., keeps | deref .., keeps | access .., keeps => by
    simp only [nodes, node, mark, kind, name?, keepsIds_cons] at keeps
    simp [visit, nodes, node, mark, kind, name?, Mark.visit_of_keeps keeps.1,
      visit_of_keeps keeps.2]
  | record .., keeps => by
    simp only [nodes, node, mark, kind, name?, keepsIds_cons] at keeps
    simp [visit, nodes, node, mark, kind, name?, Mark.visit_of_keeps keeps.1,
      visitFields_of_keeps keeps.2]

private theorem visitAll_of_keeps : ∀ {es : List Expr}, KeepsIds f look (nodesAll es) →
    visitAll f es = do forM (nodesAll es) look; return es
  | [], _ => by simp [visitAll, nodesAll]
  | e :: rest, keeps => by
    rw [nodesAll, keepsIds_append] at keeps
    simp [visitAll, nodesAll, visit_of_keeps keeps.1, visitAll_of_keeps keeps.2]

private theorem visitFields_of_keeps : ∀ {fields : List (Binding × Expr)},
    KeepsIds f look (nodesFields fields) →
      visitFields f fields = do forM (nodesFields fields) look; return fields
  | [], _ => by simp [visitFields, nodesFields]
  | (b, e) :: rest, keeps => by
    rw [nodesFields, keepsIds_cons, keepsIds_append] at keeps
    simp [visitFields, nodesFields, Binding.visit_of_keeps keeps.1, visit_of_keeps keeps.2.1,
      visitFields_of_keeps keeps.2.2]

end

end Expr

namespace Stmt

mutual

private theorem visit_of_keeps : ∀ {s : Stmt}, KeepsIds f look s.nodes →
    s.visit f = do forM s.nodes look; return s
  | declare .., keeps => by
    simp only [nodes, node, mark, kind, keepsIds_cons] at keeps
    simp [visit, nodes, node, mark, kind, Mark.visit_of_keeps keeps.1,
      Binding.visitAll_of_keeps keeps.2]
  | block .., keeps => by
    simp only [nodes, node, mark, kind, keepsIds_cons] at keeps
    simp [visit, nodes, node, mark, kind, Mark.visit_of_keeps keeps.1, visitAll_of_keeps keeps.2]
  | assign .., keeps => by
    simp only [nodes, node, mark, kind, keepsIds_cons, keepsIds_append] at keeps
    simp [visit, nodes, node, mark, kind, Mark.visit_of_keeps keeps.1,
      Expr.visit_of_keeps keeps.2.1, Expr.visit_of_keeps keeps.2.2]
  | loop .., keeps => by
    simp only [nodes, node, mark, kind, keepsIds_cons, keepsIds_append] at keeps
    simp [visit, nodes, node, mark, kind, Mark.visit_of_keeps keeps.1,
      Expr.visit_of_keeps keeps.2.1, visit_of_keeps keeps.2.2]
  | branch _ _ _ none, keeps => by
    simp only [nodes, node, mark, kind, keepsIds_cons, keepsIds_append] at keeps
    simp [visit, nodes, node, mark, kind, Mark.visit_of_keeps keeps.1,
      Expr.visit_of_keeps keeps.2.1, visit_of_keeps keeps.2.2]
  | branch _ _ _ (some _), keeps => by
    simp only [nodes, node, mark, kind, keepsIds_cons, keepsIds_append] at keeps
    simp [visit, nodes, node, mark, kind, Mark.visit_of_keeps keeps.1,
      Expr.visit_of_keeps keeps.2.1.1, visit_of_keeps keeps.2.1.2, visit_of_keeps keeps.2.2]
  | output .., keeps | error .., keeps | ret .., keeps => by
    simp only [nodes, node, mark, kind, keepsIds_cons] at keeps
    simp [visit, nodes, node, mark, kind, Mark.visit_of_keeps keeps.1, Expr.visit_of_keeps keeps.2]

private theorem visitAll_of_keeps : ∀ {body : List Stmt}, KeepsIds f look (nodesAll body) →
    visitAll f body = do forM (nodesAll body) look; return body
  | [], _ => by simp [visitAll, nodesAll]
  | s :: rest, keeps => by
    rw [nodesAll, keepsIds_append] at keeps
    simp [visitAll, nodesAll, visit_of_keeps keeps.1, visitAll_of_keeps keeps.2]

end

end Stmt

namespace Function

private theorem visit_of_keeps {g : Function} (keeps : KeepsIds f look g.nodes) :
    g.visit f = do forM g.nodes look; return g := by
  simp only [nodes, keepsIds_cons, keepsIds_append] at keeps
  simp [visit, nodes, Mark.visit_of_keeps keeps.1, Binding.visitAll_of_keeps keeps.2.1,
    Stmt.visitAll_of_keeps keeps.2.2]

private theorem visitAll_of_keeps : ∀ {fs : List Function}, KeepsIds f look (fs.flatMap nodes) →
    visitAll f fs = do forM (fs.flatMap nodes) look; return fs
  | [], _ => by simp [visitAll]
  | g :: rest, keeps => by
    rw [List.flatMap_cons, keepsIds_append] at keeps
    simp [visitAll, visit_of_keeps keeps.1, visitAll_of_keeps keeps.2]

end Function

/-- A visit that gives every node the handle that it has leaves the tree as it is. -/
theorem Program.visit_of_keeps {p : Program} (keeps : KeepsIds f look p.nodes) :
    p.visit f = do forM p.nodes look; return p := by
  rw [nodes, keepsIds_cons] at keeps
  simp [visit, nodes, Mark.visit_of_keeps keeps.1, Function.visitAll_of_keeps keeps.2]

end Keep

section Number

variable {m : Type → Type} [Monad m] {f : Node → m (Option Handle)}

private theorem Mark.visit_number (ignores : ∀ n k, f (n.number k) = f n) (k : Handle) (a : Mark)
    (kind : NodeKind) (name : Option String) :
    (a.number k).visit f kind name = a.visit f kind name := by
  rw [visit, visit, ← ignores (a.node kind name) k]
  rfl

private theorem Binding.visit_number (ignores : ∀ n k, f (n.number k) = f n) (k : Handle)
    (b : Binding) (kind : NodeKind) : (b.number k).visit f kind = b.visit f kind := by
  simp only [visit, number, Mark.visit_number ignores]

private theorem Binding.visitAll_number (ignores : ∀ n k, f (n.number k) = f n) (kind : NodeKind) :
    ∀ (k : Handle) (bs : List Binding), visitAll f kind (numberAll k bs) = visitAll f kind bs
  | _, [] => rfl
  | _, _ :: rest => by
    simp only [visitAll, numberAll, visit_number ignores, visitAll_number ignores kind _ rest]

namespace Expr

mutual

private theorem visit_number (ignores : ∀ n k, f (n.number k) = f n) :
    ∀ (k : Handle) (e : Expr), (e.number k).visit f = e.visit f
  | _, num .. | _, var .. | _, input .. | _, addrOf .. | _, null .. => by
    simp only [visit, number, Mark.visit_number ignores]
  | _, binary _ _ lhs rhs => by
    simp only [visit, number, Mark.visit_number ignores, visit_number ignores _ lhs,
      visit_number ignores _ rhs]
  | _, call _ callee args => by
    simp only [visit, number, Mark.visit_number ignores, visit_number ignores _ callee,
      visitAll_number ignores _ args]
  | _, alloc _ e | _, deref _ e | _, access _ e _ => by
    simp only [visit, number, Mark.visit_number ignores, visit_number ignores _ e]
  | _, record _ fields => by
    simp only [visit, number, Mark.visit_number ignores, visitFields_number ignores _ fields]

private theorem visitAll_number (ignores : ∀ n k, f (n.number k) = f n) :
    ∀ (k : Handle) (es : List Expr), visitAll f (numberAll k es) = visitAll f es
  | _, [] => rfl
  | _, e :: rest => by
    simp only [visitAll, numberAll, visit_number ignores _ e, visitAll_number ignores _ rest]

private theorem visitFields_number (ignores : ∀ n k, f (n.number k) = f n) :
    ∀ (k : Handle) (fields : List (Binding × Expr)),
      visitFields f (numberFields k fields) = visitFields f fields
  | _, [] => rfl
  | _, (b, e) :: rest => by
    simp only [visitFields, numberFields, Binding.visit_number ignores, visit_number ignores _ e,
      visitFields_number ignores _ rest]

end

end Expr

namespace Stmt

mutual

private theorem visit_number (ignores : ∀ n k, f (n.number k) = f n) :
    ∀ (k : Handle) (s : Stmt), (s.number k).visit f = s.visit f
  | _, declare .. => by
    simp only [visit, number, Mark.visit_number ignores, Binding.visitAll_number ignores]
  | _, block _ body => by
    simp only [visit, number, Mark.visit_number ignores, visitAll_number ignores _ body]
  | _, assign .. | _, output .. | _, error .. | _, ret .. => by
    simp only [visit, number, Mark.visit_number ignores, Expr.visit_number ignores]
  | _, loop _ _ body => by
    simp only [visit, number, Mark.visit_number ignores, Expr.visit_number ignores,
      visit_number ignores _ body]
  | _, branch _ _ yes none => by
    simp only [visit, number, Mark.visit_number ignores, Expr.visit_number ignores,
      visit_number ignores _ yes]
  | _, branch _ _ yes (some no) => by
    simp only [visit, number, Mark.visit_number ignores, Expr.visit_number ignores,
      visit_number ignores _ yes, visit_number ignores _ no]

private theorem visitAll_number (ignores : ∀ n k, f (n.number k) = f n) :
    ∀ (k : Handle) (body : List Stmt), visitAll f (numberAll k body) = visitAll f body
  | _, [] => rfl
  | _, s :: rest => by
    simp only [visitAll, numberAll, visit_number ignores _ s, visitAll_number ignores _ rest]

end

end Stmt

private theorem Function.visitAll_number (ignores : ∀ n k, f (n.number k) = f n) :
    ∀ (k : Handle) (fs : List Function), visitAll f (numberAll k fs) = visitAll f fs
  | _, [] => rfl
  | _, g :: rest => by
    simp only [visitAll, numberAll, visit, number, Mark.visit_number ignores,
      Binding.visitAll_number ignores, Stmt.visitAll_number ignores,
      visitAll_number ignores _ rest]

/-- A visit that does not look at handles finds in a numbered tree what it finds without. -/
theorem Program.visit_number (ignores : ∀ n k, f (n.number k) = f n) (p : Program) :
    p.number.visit f = p.visit f := by
  simp only [visit, number, Mark.visit_number ignores, Function.visitAll_number ignores]

end Number

/-- The tree without its handles. -/
def Program.bare (p : Program) : Program := Id.run (p.visit fun _ => pure none)

end TypeInference
