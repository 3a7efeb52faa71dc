import TypeInference.Proofs.Numbering

/-!
# The parts of a tree

Everything in a program tree that has a node of its own is a part of it. What the parts directly
below a part are is said once, one layer at a time, and pre-order is defined from that alone: a
part, then the parts of each part directly below it in turn. The listing of nodes by recursion over
the tree is this order.
-/

set_option autoImplicit false

namespace TypeInference

/-- A part of a program tree, with the node at its top. -/
inductive Part
  | program (p : Program)
  | function (f : Function)
  | formal (b : Binding)
  | localVar (b : Binding)
  | stmt (s : Stmt)
  | expr (e : Expr)
  | field (b : Binding) (init : Expr)

namespace Part

/-- What the node of a part carries besides its content. -/
def mark : Part → Mark
  | program p => p.mark
  | function f => f.mark
  | formal b | localVar b | field b _ => b.mark
  | stmt s => s.mark
  | expr e => e.mark

/-- What the node of a part is. -/
def kind : Part → NodeKind
  | program _ => .program
  | function _ => .function
  | formal _ => .formal
  | localVar _ => .localVar
  | stmt s => s.kind
  | expr e => e.kind
  | field .. => .field

/-- The name that a part declares or refers to. The name in a field access is neither. -/
def name? : Part → Option String
  | function f => some f.name
  | formal b | localVar b | field b _ => some b.name
  | expr (.var _ name) | expr (.addrOf _ name) => some name
  | program _ | stmt _ | expr _ => none

/-- The parts directly below a part, in the order of the source. -/
def children : Part → List Part
  | program p => p.functions.map function
  | function f => f.formals.map formal ++ f.body.map stmt
  | formal _ | localVar _ => []
  | stmt (.declare _ names) => names.map localVar
  | stmt (.block _ body) => body.map stmt
  | stmt (.assign _ lhs rhs) => [expr lhs, expr rhs]
  | stmt (.loop _ cond body) => [expr cond, stmt body]
  | stmt (.branch _ cond yes no) => expr cond :: stmt yes :: no.toList.map stmt
  | stmt (.output _ arg) | stmt (.error _ arg) | stmt (.ret _ arg) => [expr arg]
  | expr (.binary _ _ lhs rhs) => [expr lhs, expr rhs]
  | expr (.call _ callee args) => expr callee :: args.map expr
  | expr (.alloc _ operand) | expr (.deref _ operand) | expr (.access _ operand _) => [expr operand]
  | expr (.record _ fields) => fields.map fun (b, init) => field b init
  | expr (.num ..) | expr (.var ..) | expr (.input _) | expr (.addrOf ..) | expr (.null _) => []
  | field _ init => [expr init]

/-- The row that records a part in a node table. -/
def row (a : Part) : NodeInfo := { kind := a.kind, span := a.mark.span, name := a.name? }

/-- The node of a part. -/
def node (a : Part) : Node := a.mark.node a.kind a.name?

/-- The nodes of a part as the recursion over the tree lists them. -/
def nodes : Part → List Node
  | program p => p.nodes
  | function f => f.nodes
  | formal b => [b.node .formal]
  | localVar b => [b.node .localVar]
  | stmt s => s.nodes
  | expr e => e.nodes
  | field b init => b.node .field :: init.nodes

end Part

private theorem Expr.nodesAll_eq_flatMap (es : List Expr) : nodesAll es = es.flatMap nodes := by
  induction es with
  | nil => rfl
  | cons e rest ih => rw [nodesAll, ih, List.flatMap_cons]

private theorem Expr.nodesFields_eq_flatMap (fields : List (Binding × Expr)) :
    nodesFields fields = fields.flatMap fun (b, init) => b.node .field :: init.nodes := by
  induction fields with
  | nil => rfl
  | cons field rest ih => rw [nodesFields, ih, List.flatMap_cons, List.cons_append]

namespace Part

private theorem nodes_eq (a : Part) : a.nodes = a.node :: a.children.flatMap nodes := by
  cases a with
  | program p =>
    simp only [nodes, Program.nodes, children, List.flatMap_map]
    rfl
  | function f =>
    simp only [nodes, Function.nodes, children, List.flatMap_append, List.flatMap_map,
      Stmt.nodesAll_eq_flatMap]
    rw [List.map_eq_flatMap]
    rfl
  | formal b => rfl
  | localVar b => rfl
  | stmt s =>
    cases s with
    | declare m names =>
      simp only [nodes, Stmt.nodes, children, List.flatMap_map]
      rw [List.map_eq_flatMap]
      rfl
    | block m body =>
      simp only [nodes, Stmt.nodes, children, List.flatMap_map, Stmt.nodesAll_eq_flatMap]
      rfl
    | branch m cond yes no =>
      cases no <;> simp [nodes, Stmt.nodes, children, node, mark, kind, name?, Stmt.node]
    | _ => simp [nodes, Stmt.nodes, children, node, mark, kind, name?, Stmt.node]
  | expr e =>
    cases e with
    | call m callee args =>
      simp only [nodes, Expr.nodes, children, List.flatMap_cons, List.flatMap_map,
        Expr.nodesAll_eq_flatMap]
      rfl
    | record m fields =>
      simp only [nodes, Expr.nodes, children, List.flatMap_map, Expr.nodesFields_eq_flatMap]
      rfl
    | _ => simp [nodes, Expr.nodes, children, node, mark, kind, name?, Expr.node, Expr.name?]
  | field b init => simp [nodes, children, node, mark, kind, name?, Binding.node]

private theorem length_nodes_lt {a c : Part} (member : c ∈ a.children) :
    c.nodes.length < a.nodes.length := by
  have inside : c.nodes.Sublist (a.children.flatMap nodes) :=
    List.sublist_flatten_of_mem (List.mem_map_of_mem member)
  rw [a.nodes_eq, List.length_cons]
  exact Nat.lt_succ_of_le inside.length_le

/-- A part and all parts inside it, each before those below it, from left to right. -/
def preorder (a : Part) : List Part := a :: a.children.attach.flatMap fun c => c.1.preorder
termination_by a.nodes.length
decreasing_by exact length_nodes_lt c.2

theorem preorder_eq (a : Part) : a.preorder = a :: a.children.flatMap preorder := by
  rw [preorder]
  simp [List.flatMap]

/-- What each part has of its own, taken in pre-order, is what any function lists that lists the own
of a part before what it lists of the parts directly below. -/
theorem flatMap_preorder {α : Type} {own all : Part → List α}
    (layer : ∀ a, all a = own a ++ a.children.flatMap all) (a : Part) :
    a.preorder.flatMap own = all a := by
  induction a using preorder.induct with
  | case1 a ih =>
    rw [preorder_eq, List.flatMap_cons, List.flatMap_assoc, layer a]
    congr 1
    exact List.flatMap_congr fun c member => ih ⟨c, member⟩

theorem map_node_preorder (a : Part) : a.preorder.map node = a.nodes := by
  rw [List.map_eq_flatMap]
  exact flatMap_preorder (fun a => a.nodes_eq) a

theorem self_mem_preorder (a : Part) : a ∈ a.preorder := by
  rw [preorder_eq]
  exact List.mem_cons_self

private theorem preorder_subset {a b : Part} (inside : b ∈ a.preorder) :
    b.preorder ⊆ a.preorder := by
  induction a using preorder.induct with
  | case1 a ih =>
    rw [preorder_eq, List.mem_cons, List.mem_flatMap] at inside
    rcases inside with rfl | ⟨c, below, inside⟩
    · exact List.Subset.refl _
    · intro d inD
      rw [preorder_eq a]
      exact List.mem_cons_of_mem _ (List.mem_flatMap.mpr ⟨c, below, ih ⟨c, below⟩ inside inD⟩)

theorem nodes_subset_of_mem_preorder {a b : Part} (inside : b ∈ a.preorder) :
    b.nodes ⊆ a.nodes := by
  rw [← map_node_preorder a, ← map_node_preorder b]
  exact List.map_subset node (preorder_subset inside)

theorem mem_preorder_of_child {a b c : Part} (inside : b ∈ a.preorder)
    (below : c ∈ b.children) : c ∈ a.preorder := by
  refine preorder_subset inside ?_
  rw [preorder_eq]
  exact List.mem_cons_of_mem _ (List.mem_flatMap.mpr ⟨c, below, c.self_mem_preorder⟩)

end Part

/-- The parts of a program in pre-order, from the program itself on. -/
def Program.parts (p : Program) : List Part := (Part.program p).preorder

theorem Program.map_node_parts (p : Program) : p.parts.map Part.node = p.nodes :=
  Part.map_node_preorder (.program p)

end TypeInference
