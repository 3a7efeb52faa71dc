import TypeInference.Proofs.Visiting

/-!
# Identity

Numbering gives the nodes of a tree, in pre-order, the handles from 0 on and changes nothing else.
It can be done in the tree itself, in two visits: one that only looks for handles, and one that
writes them. Because the first visit sees every node that the second would stop at, a refused tree
is left as it was.
-/

set_option autoImplicit false

namespace TypeInference

namespace NodeTable

/-- Record further nodes, in their order. -/
def extend (table : NodeTable) (nodes : List Node) : NodeTable where
  rows := table.rows ++ (nodes.map Node.toNodeInfo).toArray

private theorem extend_nil (table : NodeTable) : table.extend [] = table := by
  simp [extend]

private theorem extend_extend (table : NodeTable) (nodes rest : List Node) :
    (table.extend nodes).extend rest = table.extend (nodes ++ rest) := by
  simp [extend]

private theorem size_extend (table : NodeTable) (nodes : List Node) :
    (table.extend nodes).size = table.size + nodes.length := by
  simp [extend, size]

end NodeTable

/-- How far a visit of the nodes has come: the nodes recorded, and the node at which it stopped. -/
structure Pass where
  table : NodeTable := {}
  fault? : Option AlreadyAssigned := none

namespace Pass

/-- Visit one node, in writing or only looking. A node that has a handle stops the visit, which
leaves it and all later nodes as they are. -/
def claim (write : Bool) (n : Node) : StateM Pass (Option Handle) := fun pass =>
  match pass.fault?, n.assigned? with
  | some _, _ => (n.id, pass)
  | none, some fault => (n.id, { pass with fault? := some fault })
  | none, none =>
    if write then (some pass.table.next, { pass with table := pass.table.extend [n] })
    else (n.id, pass)

/-- Look for a handle at a node, unless one has been found. -/
def look (n : Node) : StateM Pass Unit :=
  modify fun pass => { pass with fault? := pass.fault? <|> n.assigned? }

private theorem claim_false (n : Node) : claim false n = do look n; return n.id := by
  funext pass
  obtain ⟨table, fault?⟩ := pass
  show claim false n _ = (n.id, _)
  cases fault? <;> cases found : n.assigned? <;> simp [claim, found]

private theorem keepsIds_claim (nodes : List Node) : KeepsIds (claim false) look nodes :=
  fun n _ => claim_false n

private theorem run_look (nodes : List Node) (pass : Pass) :
    (forM nodes look : StateM Pass Unit) pass =
      ((), { pass with fault? := pass.fault? <|> nodes.findSome? Node.assigned? }) := by
  induction nodes generalizing pass with
  | nil => simp [pure, StateT.pure]
  | cons n rest ih =>
    rw [List.forM_cons]
    show (forM rest look : StateM Pass Unit) _ = _
    rw [ih]
    simp only [List.findSome?_cons]
    cases pass.fault? <;> cases n.assigned? <;> rfl

end Pass

/-- None of the nodes has a handle. -/
def Bare (nodes : List Node) : Prop := ∀ n ∈ nodes, n.id = none

instance (nodes : List Node) : Decidable (Bare nodes) :=
  inferInstanceAs (Decidable (∀ n ∈ nodes, n.id = none))

@[simp]
private theorem bare_cons {n : Node} {rest : List Node} :
    Bare (n :: rest) ↔ n.id = none ∧ Bare rest :=
  List.forall_mem_cons

@[simp]
private theorem bare_append {nodes rest : List Node} :
    Bare (nodes ++ rest) ↔ Bare nodes ∧ Bare rest :=
  List.forall_mem_append

/-- Run in a visit that has not stopped, the action records the nodes and returns what `out` gives
for the next handle. -/
def Writes {α : Type} (action : StateM Pass α) (nodes : List Node) (out : Handle → α) : Prop :=
  ∀ table : NodeTable, action { table } = (out table.size, { table := table.extend nodes })

namespace Writes

variable {α β : Type}

private theorem pure (a : α) : Writes (Pure.pure a) [] fun _ => a := by
  intro table
  rw [table.extend_nil]
  rfl

private theorem bind {action : StateM Pass α} {nodes : List Node} {out : Handle → α}
    (first : Writes action nodes out) {next : α → StateM Pass β} {rest : List Node}
    {out' : α → Handle → β} (later : ∀ a, Writes (next a) rest (out' a)) :
    Writes (action >>= next) (nodes ++ rest) fun k => out' (out k) (k + nodes.length) := by
  intro table
  show (next (action { table }).1) (action { table }).2 = _
  rw [first table, later, NodeTable.extend_extend, NodeTable.size_extend]

end Writes

private theorem Mark.writes_visit {a : Mark} {kind : NodeKind} {name : Option String}
    (bare : (a.node kind name).id = none) :
    Writes (a.visit (Pass.claim true) kind name) [a.node kind name] fun k => a.number k := by
  intro table
  obtain ⟨id, span⟩ := a
  obtain rfl : id = none := bare
  rfl

private theorem Binding.writes_visit {b : Binding} {kind : NodeKind}
    (bare : (b.node kind).id = none) :
    Writes (b.visit (Pass.claim true) kind) [b.node kind] fun k => b.number k :=
  (Mark.writes_visit bare).bind fun a => .pure (mk b.name a)

private theorem Binding.writes_visitAll {kind : NodeKind} : ∀ {bs : List Binding},
    Bare (bs.map (·.node kind)) →
      Writes (visitAll (Pass.claim true) kind bs) (bs.map (·.node kind)) fun k => numberAll k bs
  | [], _ => .pure []
  | _ :: _, bare => by
    rw [List.map_cons, bare_cons] at bare
    simpa [visitAll, numberAll] using
      (writes_visit bare.1).bind fun b => (writes_visitAll bare.2).bind fun rest =>
        .pure (b :: rest)

namespace Expr

mutual

private theorem writes_visit : ∀ {e : Expr}, Bare e.nodes →
    Writes (e.visit (Pass.claim true)) e.nodes fun k => e.number k
  | num _ v, bare => (Mark.writes_visit (bare_cons.mp bare).1).bind fun a => .pure (num a v)
  | var _ x, bare => (Mark.writes_visit (bare_cons.mp bare).1).bind fun a => .pure (var a x)
  | input _, bare => (Mark.writes_visit (bare_cons.mp bare).1).bind fun a => .pure (input a)
  | addrOf _ x, bare => (Mark.writes_visit (bare_cons.mp bare).1).bind fun a => .pure (addrOf a x)
  | null _, bare => (Mark.writes_visit (bare_cons.mp bare).1).bind fun a => .pure (null a)
  | binary _ op _ _, bare => by
    simp only [nodes, node, mark, kind, name?, bare_cons, bare_append] at bare
    simpa [visit, nodes, node, mark, kind, name?, number, length_nodes] using
      (Mark.writes_visit bare.1).bind fun a => (writes_visit bare.2.1).bind fun lhs =>
        (writes_visit bare.2.2).bind fun rhs => .pure (binary a op lhs rhs)
  | call .., bare => by
    simp only [nodes, node, mark, kind, name?, bare_cons, bare_append] at bare
    simpa [visit, nodes, node, mark, kind, name?, number, length_nodes] using
      (Mark.writes_visit bare.1).bind fun a => (writes_visit bare.2.1).bind fun callee =>
        (writes_visitAll bare.2.2).bind fun args => .pure (call a callee args)
  | alloc .., bare => by
    simp only [nodes, node, mark, kind, name?, bare_cons] at bare
    simpa [visit, nodes, node, mark, kind, name?, number] using
      (Mark.writes_visit bare.1).bind fun a => (writes_visit bare.2).bind fun e => .pure (alloc a e)
  | deref .., bare => by
    simp only [nodes, node, mark, kind, name?, bare_cons] at bare
    simpa [visit, nodes, node, mark, kind, name?, number] using
      (Mark.writes_visit bare.1).bind fun a => (writes_visit bare.2).bind fun e => .pure (deref a e)
  | access _ _ field, bare => by
    simp only [nodes, node, mark, kind, name?, bare_cons] at bare
    simpa [visit, nodes, node, mark, kind, name?, number] using
      (Mark.writes_visit bare.1).bind fun a => (writes_visit bare.2).bind fun e =>
        .pure (access a e field)
  | record .., bare => by
    simp only [nodes, node, mark, kind, name?, bare_cons] at bare
    simpa [visit, nodes, node, mark, kind, name?, number] using
      (Mark.writes_visit bare.1).bind fun a => (writes_visitFields bare.2).bind fun fields =>
        .pure (record a fields)

private theorem writes_visitAll : ∀ {es : List Expr}, Bare (nodesAll es) →
    Writes (visitAll (Pass.claim true) es) (nodesAll es) fun k => numberAll k es
  | [], _ => .pure []
  | _ :: _, bare => by
    rw [nodesAll, bare_append] at bare
    simpa [visitAll, nodesAll, numberAll, length_nodes] using
      (writes_visit bare.1).bind fun e => (writes_visitAll bare.2).bind fun rest =>
        .pure (e :: rest)

private theorem writes_visitFields : ∀ {fields : List (Binding × Expr)}, Bare (nodesFields fields) →
    Writes (visitFields (Pass.claim true) fields) (nodesFields fields) fun k =>
      numberFields k fields
  | [], _ => .pure []
  | (_, _) :: _, bare => by
    rw [nodesFields, bare_cons, bare_append] at bare
    simpa [visitFields, nodesFields, numberFields, length_nodes] using
      (Binding.writes_visit bare.1).bind fun b => (writes_visit bare.2.1).bind fun e =>
        (writes_visitFields bare.2.2).bind fun rest => .pure ((b, e) :: rest)

end

end Expr

namespace Stmt

mutual

private theorem writes_visit : ∀ {s : Stmt}, Bare s.nodes →
    Writes (s.visit (Pass.claim true)) s.nodes fun k => s.number k
  | declare .., bare => by
    simp only [nodes, node, mark, kind, bare_cons] at bare
    simpa [visit, nodes, node, mark, kind, number] using
      (Mark.writes_visit bare.1).bind fun a => (Binding.writes_visitAll bare.2).bind fun names =>
        .pure (declare a names)
  | block .., bare => by
    simp only [nodes, node, mark, kind, bare_cons] at bare
    simpa [visit, nodes, node, mark, kind, number] using
      (Mark.writes_visit bare.1).bind fun a => (writes_visitAll bare.2).bind fun body =>
        .pure (block a body)
  | assign .., bare => by
    simp only [nodes, node, mark, kind, bare_cons, bare_append] at bare
    simpa [visit, nodes, node, mark, kind, number, Expr.length_nodes] using
      (Mark.writes_visit bare.1).bind fun a => (Expr.writes_visit bare.2.1).bind fun lhs =>
        (Expr.writes_visit bare.2.2).bind fun rhs => .pure (assign a lhs rhs)
  | loop .., bare => by
    simp only [nodes, node, mark, kind, bare_cons, bare_append] at bare
    simpa [visit, nodes, node, mark, kind, number, Expr.length_nodes] using
      (Mark.writes_visit bare.1).bind fun a => (Expr.writes_visit bare.2.1).bind fun cond =>
        (writes_visit bare.2.2).bind fun body => .pure (loop a cond body)
  | branch _ _ _ none, bare => by
    simp only [nodes, node, mark, kind, bare_cons, bare_append] at bare
    simpa [visit, nodes, node, mark, kind, number, Expr.length_nodes] using
      (Mark.writes_visit bare.1).bind fun a => (Expr.writes_visit bare.2.1).bind fun cond =>
        (writes_visit bare.2.2).bind fun yes => .pure (branch a cond yes none)
  | branch _ _ _ (some _), bare => by
    simp only [nodes, node, mark, kind, bare_cons, bare_append] at bare
    simpa [visit, nodes, node, mark, kind, number, Expr.length_nodes, length_nodes] using
      (Mark.writes_visit bare.1).bind fun a => (Expr.writes_visit bare.2.1.1).bind fun cond =>
        (writes_visit bare.2.1.2).bind fun yes => (writes_visit bare.2.2).bind fun no =>
          .pure (branch a cond yes (some no))
  | output .., bare => by
    simp only [nodes, node, mark, kind, bare_cons] at bare
    simpa [visit, nodes, node, mark, kind, number] using
      (Mark.writes_visit bare.1).bind fun a => (Expr.writes_visit bare.2).bind fun arg =>
        .pure (output a arg)
  | error .., bare => by
    simp only [nodes, node, mark, kind, bare_cons] at bare
    simpa [visit, nodes, node, mark, kind, number] using
      (Mark.writes_visit bare.1).bind fun a => (Expr.writes_visit bare.2).bind fun arg =>
        .pure (error a arg)
  | ret .., bare => by
    simp only [nodes, node, mark, kind, bare_cons] at bare
    simpa [visit, nodes, node, mark, kind, number] using
      (Mark.writes_visit bare.1).bind fun a => (Expr.writes_visit bare.2).bind fun arg =>
        .pure (ret a arg)

private theorem writes_visitAll : ∀ {body : List Stmt}, Bare (nodesAll body) →
    Writes (visitAll (Pass.claim true) body) (nodesAll body) fun k => numberAll k body
  | [], _ => .pure []
  | _ :: _, bare => by
    rw [nodesAll, bare_append] at bare
    simpa [visitAll, nodesAll, numberAll, length_nodes] using
      (writes_visit bare.1).bind fun s => (writes_visitAll bare.2).bind fun rest =>
        .pure (s :: rest)

end

end Stmt

namespace Function

private theorem writes_visit {g : Function} (bare : Bare g.nodes) :
    Writes (g.visit (Pass.claim true)) g.nodes fun k => g.number k := by
  simp only [nodes, bare_cons, bare_append] at bare
  simpa [visit, nodes, number] using
    (Mark.writes_visit bare.1).bind fun a => (Binding.writes_visitAll bare.2.1).bind fun formals =>
      (Stmt.writes_visitAll bare.2.2).bind fun body => .pure (mk g.name a formals body)

private theorem writes_visitAll : ∀ {fs : List Function}, Bare (fs.flatMap nodes) →
    Writes (visitAll (Pass.claim true) fs) (fs.flatMap nodes) fun k => numberAll k fs
  | [], _ => .pure []
  | _ :: _, bare => by
    rw [List.flatMap_cons, bare_append] at bare
    simpa [visitAll, numberAll, length_nodes] using
      (writes_visit bare.1).bind fun g => (writes_visitAll bare.2).bind fun rest =>
        .pure (g :: rest)

end Function

private theorem Program.writes_visit {p : Program} (bare : Bare p.nodes) :
    Writes (p.visit (Pass.claim true)) p.nodes fun k =>
      { mark := p.mark.number k, functions := Function.numberAll (k + 1) p.functions } := by
  rw [nodes, bare_cons] at bare
  simpa [visit, nodes] using
    (Mark.writes_visit bare.1).bind fun a => (Function.writes_visitAll bare.2).bind fun functions =>
      .pure (mk a functions)

private theorem findSome?_assigned?_eq_none {nodes : List Node} :
    nodes.findSome? Node.assigned? = none ↔ Bare nodes := by
  rw [List.findSome?_eq_none_iff]
  exact forall₂_congr fun _ _ => Option.map_eq_none_iff

private theorem Node.map_id_numberAll (k : Handle) (nodes : List Node) :
    (numberAll k nodes).map Node.id = (List.range' k nodes.length).map some := by
  induction nodes generalizing k with
  | nil => rfl
  | cons n rest ih =>
    rw [numberAll, List.map_cons, ih, List.length_cons, List.range'_succ, List.map_cons]
    rfl

namespace Program

variable {p : Program}

private theorem bare_nodes_iff : Bare p.nodes ↔ ∀ a ∈ p.parts, a.mark.id = none := by
  rw [← map_node_parts, Bare, List.forall_mem_map]
  rfl

private theorem assignIds_of_bare (bare : Bare p.nodes) :
    p.assignIds = .ok (p.number, p.table) := by
  rw [assignIds, findSome?_assigned?_eq_none.mpr bare]

private theorem bare_number (p : Program) : p.number.bare = p.bare :=
  congrArg Id.run (visit_number (fun _ _ => rfl) p)

private theorem bare_of_bare_nodes (bare : Bare p.nodes) : p.bare = p := by
  have keeps : KeepsIds (m := Id) (fun _ => pure none) (fun _ => pure ()) p.nodes := by
    intro n member
    rw [bare n member]
    rfl
  have looks : (forM p.nodes fun _ => pure () : Id Unit) = pure () := rfl
  rw [Program.bare, visit_of_keeps keeps, looks]
  rfl

theorem map_id_parts_number (p : Program) :
    p.number.parts.map (·.mark.id) = (List.range p.parts.length).map some := by
  have ids : ∀ q : Program, q.parts.map (·.mark.id) = q.nodes.map Node.id := by
    intro q
    rw [← map_node_parts, List.map_map]
    rfl
  have length : p.parts.length = p.nodes.length := by
    rw [← map_node_parts, List.length_map]
  rw [ids, nodes_number, Node.map_id_numberAll, length, List.range_eq_range']

private theorem get?_table_eq_row (p : Program) (k : Handle) :
    p.table.get? k = p.parts[k]?.map Part.row := by
  rw [get?_table, ← map_node_parts, List.getElem?_map, Option.map_map]
  rfl

theorem size_table (p : Program) : p.table.size = p.parts.length := by
  rw [table, NodeTable.size, List.size_toArray, List.length_map, ← map_node_parts, List.length_map]

/-- One visit of a whole tree, which it changes in place. -/
def walk (write : Bool) : EStateM AlreadyAssigned Program NodeTable := fun p =>
  let (q, pass) := p.visit (Pass.claim write) {}
  match pass.fault? with
  | some fault => .error fault q
  | none => .ok pass.table q

/-- Number a tree in place. The first visit only looks for handles, so that a refusal never leaves
the tree half numbered. -/
def assignInPlace : EStateM AlreadyAssigned Program NodeTable := do
  let _ ← walk false
  walk true

private theorem walk_false (p : Program) :
    walk false p = match p.nodes.findSome? Node.assigned? with
      | some fault => .error fault p
      | none => .ok {} p := by
  have visited : p.visit (Pass.claim false) {} =
      (p, { fault? := p.nodes.findSome? Node.assigned? }) := by
    rw [visit_of_keeps (Pass.keepsIds_claim p.nodes)]
    show ((p, ((forM p.nodes Pass.look : StateM Pass Unit) {}).2) : Program × Pass) = _
    rw [Pass.run_look]
    rfl
  rw [walk, visited]

private theorem walk_true (bare : Bare p.nodes) : walk true p = .ok p.table p.number := by
  have visited := writes_visit bare {}
  rw [walk, visited]
  simp [NodeTable.extend, table, number, NodeTable.size]

/-- Numbering in place leaves the numbered tree, or the tree as it was. -/
theorem assignInPlace_eq (p : Program) :
    assignInPlace p = match p.assignIds with
      | .ok (q, table) => .ok table q
      | .error fault => .error fault p := by
  have scanned := walk_false p
  rw [assignIds]
  cases found : p.nodes.findSome? Node.assigned? with
  | some fault =>
    rw [found] at scanned
    simp only [assignInPlace, bind, EStateM.bind, scanned]
  | none =>
    -- After a clean scan there is no node that could stop the writing visit.
    rw [found] at scanned
    have written := walk_true (findSome?_assigned?_eq_none.mp found)
    simp only [assignInPlace, bind, EStateM.bind, scanned, written]

/-- A tree without handles is numbered: its parts get the handles from 0 on in pre-order, nothing
but handles changes, and the table holds the row of each part at its handle. The two visits that
number a tree in place leave the same tree and the same table. -/
theorem assignIds_numbers_parts (p : Program) (bare : ∀ a ∈ p.parts, a.mark.id = none) :
    ∃ q table, p.assignIds = .ok (q, table) ∧ assignInPlace p = .ok table q ∧
      q.parts.map (·.mark.id) = (List.range p.parts.length).map some ∧ q.bare = p ∧
      table.size = p.parts.length ∧ ∀ k, table.get? k = p.parts[k]?.map Part.row := by
  have bareNodes := bare_nodes_iff.mpr bare
  have assigned := assignIds_of_bare bareNodes
  refine ⟨p.number, p.table, assigned, ?_, map_id_parts_number p, ?_, size_table p,
    get?_table_eq_row p⟩
  · rw [assignInPlace_eq, assigned]
  · rw [bare_number, bare_of_bare_nodes bareNodes]

/-- A function `pick(p)` with a local, a condition with both branches, a record and a call. -/
theorem assignIds_numbers_parts_pick :
    let p : Program := .ofFunctions [
      { name := "pick", formals := [{ name := "p" }], body := [
        .declare {} [{ name := "q" }],
        .branch {} (.binary {} .gt (.var {} "p") (.num {} 0))
          (.assign {} (.var {} "q")
            (.access {} (.record {} [({ name := "of" }, .addrOf {} "p")]) "of"))
          (some (.output {} (.deref {} (.var {} "q")))),
        .ret {} (.call {} (.var {} "pick") [.var {} "q", .null {}])] }]
    (∀ a ∈ p.parts, a.mark.id = none) ∧ ∃ q table, p.assignIds = .ok (q, table) ∧
      assignInPlace p = .ok table q ∧
      q.parts.map (·.mark.id) = (List.range 23).map some ∧ q.bare = p ∧ table.size = 23 ∧
      (∀ k, table.get? k = p.parts[k]?.map Part.row) ∧
      table.get? 13 = some { kind := .field, name := some "of" } := by
  intro p
  have bare : ∀ a ∈ p.parts, a.mark.id = none := bare_nodes_iff.mp (by decide)
  have length : p.parts.length = 23 := by
    rw [← List.length_map Part.node, map_node_parts]
    rfl
  obtain ⟨q, table, assigned, inPlace, ids, same, size, rows⟩ := assignIds_numbers_parts p bare
  rw [length] at ids size
  refine ⟨bare, q, table, assigned, inPlace, ids, same, size, rows, ?_⟩
  obtain ⟨-, rfl⟩ := assignIds_eq_ok assigned
  rfl

private theorem first_of_assignIds_error {fault : AlreadyAssigned}
    (failed : p.assignIds = .error fault) :
    ∃ before a after, p.parts = before ++ a :: after ∧ (∀ b ∈ before, b.mark.id = none) ∧
      a.mark.id = some fault.id ∧ a.kind = fault.kind ∧ a.mark.span = fault.span := by
  rw [assignIds] at failed
  split at failed
  · rename_i fault found
    cases failed
    rw [← map_node_parts, List.findSome?_map, List.findSome?_eq_some_iff] at found
    obtain ⟨before, a, after, split, assigned, earlier⟩ := found
    obtain ⟨id, carried, rfl⟩ := Option.map_eq_some_iff.mp assigned
    refine ⟨before, a, after, split, fun b member => ?_, carried, rfl, rfl⟩
    exact Option.map_eq_none_iff.mp (earlier b member)
  · cases failed

private theorem exists_assignIds_error_iff :
    (∃ fault, p.assignIds = .error fault) ↔ ∃ a ∈ p.parts, a.mark.id ≠ none := by
  constructor
  · rintro ⟨fault, failed⟩
    obtain ⟨before, a, after, split, -, carried, -⟩ := first_of_assignIds_error failed
    refine ⟨a, by simp [split], ?_⟩
    simp [carried]
  · rintro ⟨a, member, numbered⟩
    by_contra! noError
    apply numbered
    apply bare_nodes_iff.mp _ a member
    cases found : p.nodes.findSome? Node.assigned? with
    | none => exact findSome?_assigned?_eq_none.mp found
    | some fault => exact absurd (by rw [assignIds, found]) (noError fault)

private theorem assignIds_number (p : Program) :
    p.number.assignIds = .error { kind := .program, id := 0, span := p.mark.span } := rfl

/-- Numbering in place is all or nothing. It does what `assignIds` says; it fails exactly on a tree
with a handle in it, at the first part that has one, and leaves such a tree as it was. So once the
handles are gone, in whatever way, the tree that it left is numbered like any other, and a numbered
tree is refused at its top. -/
theorem assignInPlace_all_or_nothing (p : Program) :
    (assignInPlace p = match p.assignIds with
      | .ok (q, table) => .ok table q
      | .error fault => .error fault p) ∧
    ((∃ fault q, assignInPlace p = .error fault q) ↔ ∃ a ∈ p.parts, a.mark.id ≠ none) ∧
    (∀ fault q, assignInPlace p = .error fault q →
      q = p ∧
      (∃ before a after, p.parts = before ++ a :: after ∧ (∀ b ∈ before, b.mark.id = none) ∧
        a.mark.id = some fault.id ∧ a.kind = fault.kind ∧ a.mark.span = fault.span) ∧
      ∀ edit : Program → Program, (∀ a ∈ (edit p).parts, a.mark.id = none) →
        assignInPlace (edit q) = .ok (edit p).table (edit p).number) ∧
    ∀ table q, assignInPlace p = .ok table q →
      assignInPlace q = .error { kind := .program, id := 0, span := p.mark.span } q := by
  have agrees := assignInPlace_eq p
  refine ⟨agrees, ?_, ?_, ?_⟩
  · rw [← exists_assignIds_error_iff, agrees]
    cases p.assignIds <;> simp
  · intro fault q failed
    rw [agrees] at failed
    split at failed
    · cases failed
    · rename_i refused
      cases failed
      refine ⟨rfl, first_of_assignIds_error refused, fun edit bare => ?_⟩
      rw [assignInPlace_eq, assignIds_of_bare (bare_nodes_iff.mpr bare)]
  · intro table q succeeded
    rw [agrees] at succeeded
    split at succeeded
    · rename_i assigned
      cases succeeded
      obtain ⟨rfl, rfl⟩ := assignIds_eq_ok assigned
      rw [assignInPlace_eq, assignIds_number]
    · cases succeeded

/-- A block that has a handle from an earlier tree, inside a loop; and the program without the
loop. -/
theorem assignInPlace_all_or_nothing_grafted :
    let p : Program := .ofFunctions [
      { name := "main", body := [
        .output {} (.num {} 1),
        .loop {} (.input {}) (.block { id := some 7, span := { line := 3 } } []),
        .ret {} (.num {} 0)] }]
    let edit (p : Program) : Program := { p with
      functions := p.functions.map fun f => { f with body := f.body.filter (·.kind ≠ .loop) } }
    assignInPlace p = .error { kind := .block, id := 7, span := { line := 3 } } p ∧
    assignInPlace (edit p) = .ok (edit p).table (edit p).number ∧
    assignInPlace (edit p).number =
      .error { kind := .program, id := 0, span := {} } (edit p).number := by
  intro p edit
  have failed : assignInPlace p = .error { kind := .block, id := 7, span := { line := 3 } } p :=
    (assignInPlace_all_or_nothing p).1
  have repaired := ((assignInPlace_all_or_nothing p).2.2.1 _ _ failed).2.2 edit
    (bare_nodes_iff.mp (by decide))
  exact ⟨failed, repaired, (assignInPlace_all_or_nothing (edit p)).2.2.2 _ _ repaired⟩

end Program

end TypeInference
