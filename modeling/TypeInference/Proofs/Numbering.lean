import TypeInference.Proofs.Rules
import TypeInference.Tree.Numbering

/-!
# Numbered trees

Numbering a tree numbers its nodes in the order in which they are listed, so the row of a handle in
the table is that of the node that carries it.
-/

set_option autoImplicit false

namespace TypeInference

/-- Give a node the handle `k`. -/
def Node.number (k : Handle) (n : Node) : Node := { n with id := some k }

/-- Give nodes the handles from `k` on. -/
def Node.numberAll (k : Handle) : List Node → List Node
  | [] => []
  | n :: rest => n.number k :: numberAll (k + 1) rest

namespace Node

private theorem numberAll_append (k : Handle) (nodes rest : List Node) :
    numberAll k (nodes ++ rest) = numberAll k nodes ++ numberAll (k + nodes.length) rest := by
  induction nodes generalizing k with
  | nil => rfl
  | cons n nodes ih =>
    simp only [List.cons_append, numberAll, ih, List.length_cons]
    rw [Nat.add_assoc, Nat.add_comm 1]

private theorem mem_numberAll {n : Node} {k : Handle} {nodes : List Node} :
    n ∈ numberAll k nodes ↔ ∃ (i : Nat) (m : Node), nodes[i]? = some m ∧ n = m.number (k + i) := by
  induction nodes generalizing k with
  | nil => simp [numberAll]
  | cons first rest ih =>
    rw [numberAll, List.mem_cons, ih]
    constructor
    · rintro (rfl | ⟨i, m, found, rfl⟩)
      · exact ⟨0, first, rfl, rfl⟩
      · exact ⟨i + 1, m, found, by rw [Nat.add_assoc, Nat.add_comm 1]⟩
    · rintro ⟨i, m, found, rfl⟩
      cases i with
      | zero =>
        obtain rfl : first = m := by simpa using found
        exact .inl rfl
      | succ i => exact .inr ⟨i, m, found, by rw [Nat.add_assoc, Nat.add_comm 1]⟩

end Node

private theorem Binding.nodes_numberAll (k : Handle) (kind : NodeKind) (bs : List Binding) :
    (numberAll k bs).map (·.node kind) = Node.numberAll k (bs.map (·.node kind)) := by
  induction bs generalizing k with
  | nil => rfl
  | cons b rest ih =>
    simp only [numberAll, List.map_cons, Node.numberAll, ih]
    rfl

namespace Expr

mutual

private theorem nodes_number :
    ∀ (k : Handle) (e : Expr), (e.number k).nodes = Node.numberAll k e.nodes
  | k, num .. | k, var .. | k, input .. | k, addrOf .. | k, null .. => rfl
  | k, binary _ _ lhs rhs => by
    simp only [number, nodes, Node.numberAll, Node.numberAll_append, nodes_number, length_nodes]
    rfl
  | k, call _ callee args => by
    simp only [number, nodes, Node.numberAll, Node.numberAll_append, nodes_number,
      nodesAll_number, length_nodes]
    rfl
  | k, alloc _ operand | k, deref _ operand | k, access _ operand _ => by
    simp only [number, nodes, Node.numberAll, nodes_number]
    rfl
  | k, record _ fields => by
    simp only [number, nodes, Node.numberAll, nodesFields_number]
    rfl

private theorem nodesAll_number : ∀ (k : Handle) (es : List Expr),
    nodesAll (numberAll k es) = Node.numberAll k (nodesAll es)
  | _, [] => rfl
  | k, e :: rest => by
    simp only [numberAll, nodesAll, Node.numberAll_append, nodes_number, nodesAll_number,
      length_nodes]

private theorem nodesFields_number : ∀ (k : Handle) (fields : List (Binding × Expr)),
    nodesFields (numberFields k fields) = Node.numberAll k (nodesFields fields)
  | _, [] => rfl
  | k, (b, e) :: rest => by
    simp only [numberFields, nodesFields, Node.numberAll, Node.numberAll_append, nodes_number,
      nodesFields_number, length_nodes]
    rfl

end

end Expr

namespace Stmt

mutual

private theorem nodes_number :
    ∀ (k : Handle) (s : Stmt), (s.number k).nodes = Node.numberAll k s.nodes
  | k, declare _ names => by
    simp only [number, nodes, Node.numberAll, Binding.nodes_numberAll]
    rfl
  | k, block _ body => by
    simp only [number, nodes, Node.numberAll, nodesAll_number]
    rfl
  | k, assign _ lhs rhs => by
    simp only [number, nodes, Node.numberAll, Node.numberAll_append, Expr.nodes_number,
      Expr.length_nodes]
    rfl
  | k, loop _ cond body => by
    simp only [number, nodes, Node.numberAll, Node.numberAll_append, Expr.nodes_number,
      nodes_number, Expr.length_nodes]
    rfl
  | k, branch _ cond yes none => by
    simp only [number, nodes, Node.numberAll, Node.numberAll_append, Expr.nodes_number,
      nodes_number, Expr.length_nodes]
    rfl
  | k, branch _ cond yes (some no) => by
    simp only [number, nodes, Node.numberAll, Node.numberAll_append, Expr.nodes_number,
      nodes_number, Expr.length_nodes, length_nodes, List.length_append, Nat.add_assoc]
    rfl
  | k, output _ arg | k, error _ arg | k, ret _ arg => by
    simp only [number, nodes, Node.numberAll, Expr.nodes_number]
    rfl

private theorem nodesAll_number : ∀ (k : Handle) (body : List Stmt),
    nodesAll (numberAll k body) = Node.numberAll k (nodesAll body)
  | _, [] => rfl
  | k, s :: rest => by
    simp only [numberAll, nodesAll, Node.numberAll_append, nodes_number, nodesAll_number,
      length_nodes]

end

end Stmt

namespace Function

private theorem nodes_number (k : Handle) (f : Function) :
    (f.number k).nodes = Node.numberAll k f.nodes := by
  simp only [number, nodes, Node.numberAll, Node.numberAll_append, Binding.nodes_numberAll,
    Stmt.nodesAll_number, List.length_map]
  rfl

private theorem flatMap_nodes_number (k : Handle) (fs : List Function) :
    (numberAll k fs).flatMap nodes = Node.numberAll k (fs.flatMap nodes) := by
  induction fs generalizing k with
  | nil => rfl
  | cons f rest ih =>
    rw [numberAll, List.flatMap_cons, List.flatMap_cons, Node.numberAll_append, nodes_number, ih,
      length_nodes]

end Function

theorem Program.nodes_number (p : Program) : p.number.nodes = Node.numberAll 0 p.nodes := by
  simp only [number, nodes, Node.numberAll, Function.flatMap_nodes_number]
  rfl

/-- Every node carries the handle of the row that records it. -/
def Numbered (table : NodeTable) (nodes : List Node) : Prop :=
  ∀ n ∈ nodes, ∃ h, n.id = some h ∧ table.get? h = some n.toNodeInfo

theorem numbered_append {table : NodeTable} {nodes rest : List Node} :
    Numbered table (nodes ++ rest) ↔ Numbered table nodes ∧ Numbered table rest :=
  List.forall_mem_append

theorem numbered_cons {table : NodeTable} {n : Node} {rest : List Node} :
    Numbered table (n :: rest) ↔
      (∃ h, n.id = some h ∧ table.get? h = some n.toNodeInfo) ∧ Numbered table rest :=
  List.forall_mem_cons

namespace NodeTable

/-- A handle of the table whose node has a type. -/
def IsTyped (table : NodeTable) (h : Handle) : Prop := (table.get h).kind.isTyped

instance (table : NodeTable) : DecidablePred table.IsTyped := fun h =>
  inferInstanceAs (Decidable ((table.get h).kind.isTyped = true))

theorem IsTyped.lt_size {table : NodeTable} {h : Handle} (typed : table.IsTyped h) :
    h < table.size := by
  by_contra outside
  rw [size, Nat.not_lt] at outside
  have missing : table.get? h = none := Array.getElem?_eq_none outside
  simp [IsTyped, get, missing, NodeKind.isTyped] at typed

theorem mem_typed {table : NodeTable} {h : Handle} : h ∈ table.typed ↔ table.IsTyped h := by
  rw [typed, List.mem_filter, List.mem_range]
  exact ⟨fun ⟨_, isTyped⟩ => isTyped, fun isTyped => ⟨isTyped.lt_size, isTyped⟩⟩

end NodeTable

/-- The typed nodes of a numbered tree are typed handles of its table. -/
theorem Numbered.typedIn {table : NodeTable} {nodes : List Node} (numbered : Numbered table nodes) :
    TypedIn table.IsTyped nodes := by
  intro n member typed
  obtain ⟨h, carried, found⟩ := numbered n member
  rw [Node.handle, carried]
  simpa [NodeTable.IsTyped, NodeTable.get, found] using typed

namespace Program

variable {p q : Program} {table : NodeTable}

theorem assignIds_eq_ok (assigned : p.assignIds = .ok (q, table)) :
    q = p.number ∧ table = p.table := by
  rw [assignIds] at assigned
  split at assigned
  · cases assigned
  · cases assigned
    exact ⟨rfl, rfl⟩

theorem get?_table (p : Program) (h : Handle) :
    p.table.get? h = p.nodes[h]?.map Node.toNodeInfo := by
  rw [table, NodeTable.get?, List.getElem?_toArray, List.getElem?_map]

theorem numbered_of_assignIds (assigned : p.assignIds = .ok (q, table)) :
    Numbered table q.nodes := by
  obtain ⟨rfl, rfl⟩ := assignIds_eq_ok assigned
  intro n member
  rw [nodes_number, Node.mem_numberAll] at member
  obtain ⟨i, m, found, rfl⟩ := member
  refine ⟨0 + i, rfl, ?_⟩
  rw [get?_table, Nat.zero_add, found]
  rfl

/-- Every row of the table of a numbered tree is that of a node. -/
theorem exists_node_of_assignIds (assigned : p.assignIds = .ok (q, table)) {h : Handle}
    (typed : table.IsTyped h) : ∃ n ∈ q.nodes, n.kind.isTyped ∧ n.handle = h := by
  obtain ⟨rfl, rfl⟩ := assignIds_eq_ok assigned
  rw [NodeTable.IsTyped, NodeTable.get, get?_table] at typed
  cases found : p.nodes[h]? with
  | none => simp [found, NodeKind.isTyped] at typed
  | some m =>
    rw [found] at typed
    refine ⟨m.number h, ?_, typed, rfl⟩
    rw [nodes_number, Node.mem_numberAll]
    exact ⟨h, m, found, by rw [Nat.zero_add]⟩

end Program

namespace Function

private theorem le_handle_numberAll {k : Handle} {fs : List Function} {f : Function}
    (member : f ∈ numberAll k fs) : k ≤ f.mark.handle := by
  induction fs generalizing k with
  | nil => cases member
  | cons first rest ih =>
    rw [numberAll, List.mem_cons] at member
    rcases member with rfl | member
    · exact Nat.le_refl k
    · exact (Nat.le_add_right _ _).trans (ih member)

private theorem nodup_handles_numberAll (k : Handle) (fs : List Function) :
    ((numberAll k fs).map (·.mark.handle)).Nodup := by
  induction fs generalizing k with
  | nil => exact List.nodup_nil
  | cons first rest ih =>
    rw [numberAll, List.map_cons, List.nodup_cons]
    refine ⟨fun repeated => ?_, ih _⟩
    obtain ⟨f, member, equal⟩ := List.mem_map.mp repeated
    have later : k + first.size ≤ f.mark.handle := le_handle_numberAll member
    have nonempty : 0 < first.size := by simp only [size]; omega
    rw [show f.mark.handle = k from equal] at later
    exact absurd later (Nat.not_le.mpr (Nat.lt_add_of_pos_right nonempty))

end Function

theorem Function.formal_mem_nodes {f : Function} {b : Binding} (member : b ∈ f.formals) :
    b.node .formal ∈ f.nodes :=
  List.mem_cons_of_mem _ (List.mem_append_left _ (List.mem_map_of_mem member))

theorem Program.nodup_handles_of_assignIds {p q : Program} {table : NodeTable}
    (assigned : p.assignIds = .ok (q, table)) : (q.functions.map (·.mark.handle)).Nodup := by
  obtain ⟨rfl, -⟩ := assignIds_eq_ok assigned
  exact Function.nodup_handles_numberAll 1 p.functions

namespace Stmt

mutual

private theorem node_mem_of_locals :
    ∀ {s : Stmt} {b : Binding}, b ∈ s.locals → b.node .localVar ∈ s.nodes
  | declare _ names, b, member => List.mem_cons_of_mem _ (List.mem_map_of_mem member)
  | block _ body, b, member => List.mem_cons_of_mem _ (node_mem_of_localsAll member)
  | loop _ cond body, b, member =>
    List.mem_cons_of_mem _ (List.mem_append_right _ (node_mem_of_locals (s := body) member))
  | branch _ cond yes none, b, member =>
    List.mem_cons_of_mem _ (List.mem_append_right _ (node_mem_of_locals (s := yes) member))
  | branch _ cond yes (some no), b, member => by
    apply List.mem_cons_of_mem
    rcases List.mem_append.mp member with inYes | inNo
    · exact List.mem_append_left _ (List.mem_append_right _ (node_mem_of_locals inYes))
    · exact List.mem_append_right _ (node_mem_of_locals inNo)
  | assign .., _, member | output .., _, member | error .., _, member | ret .., _, member => by
    cases member

theorem node_mem_of_localsAll : ∀ {body : List Stmt} {b : Binding}, b ∈ localsAll body →
    b.node .localVar ∈ nodesAll body
  | [], _, member => by cases member
  | s :: rest, b, member => by
    rcases List.mem_append.mp member with inFirst | inRest
    · exact List.mem_append_left _ (node_mem_of_locals inFirst)
    · exact List.mem_append_right _ (node_mem_of_localsAll inRest)

end

theorem nodesAll_eq_flatMap (body : List Stmt) : nodesAll body = body.flatMap nodes := by
  induction body with
  | nil => rfl
  | cons s rest ih => rw [nodesAll, ih, List.flatMap_cons]

private theorem nodes_subset_nodesAll {s : Stmt} {body : List Stmt} (member : s ∈ body) :
    s.nodes ⊆ nodesAll body := by
  intro n inStmt
  rw [nodesAll_eq_flatMap]
  exact List.mem_flatMap.mpr ⟨s, member, inStmt⟩

end Stmt

theorem Function.nodes_subset_of_mem {f : Function} {s : Stmt} (member : s ∈ f.body) :
    s.nodes ⊆ f.nodes := fun _ inStmt => List.mem_cons_of_mem _
  (List.mem_append_right _ (Stmt.nodes_subset_nodesAll member inStmt))

namespace Program

variable {p : Program} {f : Function}

theorem nodes_subset_of_mem (member : f ∈ p.functions) : f.nodes ⊆ p.nodes :=
  fun _ inFunction => List.mem_cons_of_mem _ (List.mem_flatMap.mpr ⟨f, member, inFunction⟩)

/-- A name means a typed node of the tree. -/
theorem typedIn_env {S : Handle → Prop} (own : TypedIn S p.nodes) (member : f ∈ p.functions)
    {name : String} {h : Handle} (found : p.env f name = some h) : S h := by
  have ofMark : ∀ {n : Node} {m : Mark}, n ∈ p.nodes → n.kind.isTyped → n.id = m.id →
      m.id = some h → S h := by
    intro n m inTree typed carried numbered
    have inS := own n inTree typed
    rwa [Node.handle, carried, numbered] at inS
  rw [env] at found
  split at found
  · rename_i b declared
    have inNames := List.mem_of_find?_eq_some declared
    rcases List.mem_append.mp inNames with formal | isLocal
    · exact ofMark (nodes_subset_of_mem member (Function.formal_mem_nodes formal)) rfl rfl found
    · refine ofMark (n := b.node .localVar) (nodes_subset_of_mem member ?_) rfl rfl found
      exact List.mem_cons_of_mem _
        (List.mem_append_right _ (Stmt.node_mem_of_localsAll isLocal))
  · obtain ⟨g, declared, numbered⟩ := Option.bind_eq_some_iff.mp found
    have inProgram := List.mem_of_find?_eq_some declared
    exact ofMark (n := g.mark.node .function (some g.name))
      (nodes_subset_of_mem inProgram List.mem_cons_self) rfl rfl numbered

end Program

namespace Numbered

variable {table : NodeTable} {q : Program} {f : Function}

/-- The functions of a numbered program are numbered. -/
theorem function (numbered : Numbered table q.nodes) (member : f ∈ q.functions) :
    Numbered table f.nodes :=
  fun n inFunction => numbered n (Program.nodes_subset_of_mem member inFunction)

theorem function_id (numbered : Numbered table q.nodes) (member : f ∈ q.functions) :
    ∃ h, f.mark.id = some h := by
  obtain ⟨h, carried, -⟩ := numbered.function member _ List.mem_cons_self
  exact ⟨h, carried⟩

theorem stmt (numbered : Numbered table f.nodes) {s : Stmt} (member : s ∈ f.body) :
    Numbered table s.nodes :=
  fun n inStmt => numbered n (Function.nodes_subset_of_mem member inStmt)

end Numbered

end TypeInference
