import TypeInference.Proofs.Declarations
import TypeInference.Proofs.Gathering
import TypeInference.Proofs.Parts

/-!
# Well-scoped programs

A program is well scoped when no scope declares a name twice and no part refers to a name that is
not declared. The only faults of a numbered tree are names without meaning, so a well-scoped one has
none, and declaring its functions can end in a conflict only.
-/

set_option autoImplicit false

namespace TypeInference

/-- The name that a node refers to; only variables and address-of nodes refer to one. -/
def Node.reference? (n : Node) : Option String :=
  match n.kind with
  | .var | .addrOf => n.name
  | _ => none

namespace Part

/-- What a part adds to the scope of its function: only formals and locals add something. -/
def binding? : Part → Option Binding
  | formal b | localVar b => some b
  | program _ | function _ | stmt _ | expr _ | field .. => none

/-- The name that a part refers to. -/
def reference? : Part → Option String
  | expr (.var _ name) | expr (.addrOf _ name) => some name
  | program _ | function _ | formal _ | localVar _ | stmt _ | expr _ | field .. => none

theorem reference?_node (a : Part) : a.node.reference? = a.reference? := by
  cases a with
  | expr e => cases e <;> rfl
  | stmt s => cases s <;> rfl
  | program | function | formal | localVar | field => rfl

/-- The bindings of a part as the recursion over the tree collects them. -/
def bindings : Part → List Binding
  | program p => p.functions.flatMap fun f => f.formals ++ f.locals
  | function f => f.formals ++ f.locals
  | formal b | localVar b => [b]
  | stmt s => s.locals
  | expr _ | field .. => []

end Part

private theorem Stmt.localsAll_eq_flatMap (body : List Stmt) :
    localsAll body = body.flatMap locals := by
  induction body with
  | nil => rfl
  | cons s rest ih => rw [localsAll, ih, List.flatMap_cons]

namespace Part

private theorem bindings_eq (a : Part) :
    a.bindings = a.binding?.toList ++ a.children.flatMap bindings := by
  cases a with
  | program p =>
    simp only [bindings, children, List.flatMap_map]
    rfl
  | function f =>
    simp only [bindings, children, List.flatMap_append, List.flatMap_map, Function.locals,
      Stmt.localsAll_eq_flatMap]
    rw [List.flatMap_singleton' f.formals]
    rfl
  | formal b => rfl
  | localVar b => rfl
  | stmt s =>
    cases s with
    | declare m names =>
      simp only [bindings, children, List.flatMap_map, Stmt.locals]
      rw [List.flatMap_singleton' names]
      rfl
    | block m body =>
      simp only [bindings, children, List.flatMap_map, Stmt.locals, Stmt.localsAll_eq_flatMap]
      rfl
    | branch m cond yes no => cases no <;> simp [bindings, children, Stmt.locals, binding?]
    | _ => simp [bindings, children, Stmt.locals, binding?]
  | expr e => cases e <;> simp [bindings, children, binding?, List.flatMap_map]
  | field b init => simp [bindings, children, binding?]

end Part

namespace Function

/-- The parts of a function in pre-order, from the function itself on. -/
def parts (f : Function) : List Part := (Part.function f).preorder

/-- The formals and locals of a function, at whatever depth they are declared. -/
def bindings (f : Function) : List Binding := f.parts.filterMap Part.binding?

theorem bindings_eq (f : Function) : f.bindings = f.formals ++ f.locals := by
  rw [bindings, List.filterMap_eq_flatMap_toList]
  exact Part.flatMap_preorder Part.bindings_eq (.function f)

theorem mem_nodes_iff {f : Function} {n : Node} : n ∈ f.nodes ↔ ∃ a ∈ f.parts, a.node = n := by
  rw [show f.nodes = f.parts.map Part.node from (Part.map_node_preorder (.function f)).symm,
    List.mem_map]

/-- The names that parts refer to are those that nodes refer to. -/
theorem forall_reference_iff {f : Function} {P : String → Prop} :
    (∀ a ∈ f.parts, ∀ name ∈ a.reference?, P name) ↔
      ∀ n ∈ f.nodes, ∀ name ∈ n.reference?, P name := by
  constructor
  · intro parts n inside
    obtain ⟨a, inParts, rfl⟩ := mem_nodes_iff.mp inside
    rw [Part.reference?_node]
    exact parts a inParts
  · intro nodes a inParts
    rw [← Part.reference?_node]
    exact nodes a.node (mem_nodes_iff.mpr ⟨a, inParts, rfl⟩)

end Function

namespace Program

/-- Functions have distinct names, the formals and locals of each function have distinct names, and
every name that a part of a function refers to is one of these. -/
structure WellScoped (p : Program) : Prop where
  functions : (p.functions.map (·.name)).Nodup
  bindings : ∀ f ∈ p.functions, (f.bindings.map (·.name)).Nodup
  references : ∀ f ∈ p.functions, ∀ a ∈ f.parts, ∀ name ∈ a.reference?,
    name ∈ f.bindings.map (·.name) ∨ name ∈ p.functions.map (·.name)

/-- Scoping read off the recursion over the tree, which computes where pre-order does not. -/
theorem wellScoped_iff {p : Program} : p.WellScoped ↔
    (p.functions.map (·.name)).Nodup ∧
      (∀ f ∈ p.functions, ((f.formals ++ f.locals).map (·.name)).Nodup) ∧
      ∀ f ∈ p.functions, ∀ n ∈ f.nodes, ∀ name ∈ n.reference?,
        name ∈ (f.formals ++ f.locals).map (·.name) ∨ name ∈ p.functions.map (·.name) := by
  simp only [← Function.bindings_eq, ← Function.forall_reference_iff]
  exact ⟨fun ⟨functions, bindings, references⟩ => ⟨functions, bindings, references⟩,
    fun ⟨functions, bindings, references⟩ => ⟨functions, bindings, references⟩⟩

instance (p : Program) : Decidable p.WellScoped := decidable_of_iff _ wellScoped_iff.symm

/-- The marked node declares a name for which there is another declaration: another function, or
another formal or local of its function. -/
def DeclaresTwice (p : Program) (name : String) (mark : Mark) : Prop :=
  (∃ f ∈ p.functions, f.name = name ∧ f.mark = mark ∧
    1 < (p.functions.map (·.name)).count name) ∨
  ∃ f ∈ p.functions, ∃ b ∈ f.bindings, b.name = name ∧ b.mark = mark ∧
    1 < (f.bindings.map (·.name)).count name

/-- The marked node refers to a name that is declared neither in its function nor as a function. -/
def LacksName (p : Program) (name : String) (mark : Mark) : Prop :=
  ∃ f ∈ p.functions, ∃ a ∈ f.parts, a.reference? = some name ∧ a.mark = mark ∧
    name ∉ f.bindings.map (·.name) ∧ name ∉ p.functions.map (·.name)

/-- The error is about a name, and what it says is so. -/
def Misnames (p : Program) : TypeError → Prop
  | .duplicateName name node span => p.DeclaresTwice name { id := some node, span }
  | .unboundName name node span => p.LacksName name { id := some node, span }
  | .conflict .. | .unresolved .. | .unassigned .. => False

theorem WellScoped.not_misnames {p : Program} {e : TypeError} (wellScoped : p.WellScoped) :
    ¬ p.Misnames e := by
  cases e with
  | duplicateName name node span =>
    rintro (⟨f, -, -, -, repeated⟩ | ⟨f, member, b, -, -, -, repeated⟩)
    · exact absurd (List.nodup_iff_count_le_one.mp wellScoped.functions name) (by omega)
    · exact absurd (List.nodup_iff_count_le_one.mp (wellScoped.bindings f member) name) (by omega)
  | unboundName name node span =>
    rintro ⟨f, member, a, inParts, refers, -, undeclared, noFunction⟩
    rcases wellScoped.references f member a inParts name refers with declared | isFunction
    · exact undeclared declared
    · exact noFunction isFunction
  | conflict | unresolved | unassigned => exact id

end Program

/-- Every name that the nodes refer to means something. -/
def Env.Knows (env : Env) (nodes : List Node) : Prop :=
  ∀ n ∈ nodes, ∀ name ∈ n.reference?, ∃ h, env name = some h

private theorem knows_append {env : Env} {nodes rest : List Node} :
    env.Knows (nodes ++ rest) ↔ env.Knows nodes ∧ env.Knows rest := List.forall_mem_append

private theorem knows_cons {env : Env} {n : Node} {rest : List Node} :
    env.Knows (n :: rest) ↔ (∀ name ∈ n.reference?, ∃ h, env name = some h) ∧ env.Knows rest :=
  List.forall_mem_cons

private theorem knows_cons_of_silent {env : Env} {n : Node} {rest : List Node}
    (silent : n.reference? = none) (known : env.Knows rest) : env.Knows (n :: rest) := by
  refine knows_cons.mpr ⟨fun name refers => ?_, known⟩
  rw [silent] at refers
  cases refers

private theorem knows_bindings {env : Env} {kind : NodeKind} {bs : List Binding}
    (silent : ∀ b : Binding, (b.node kind).reference? = none) :
    env.Knows (bs.map (·.node kind)) := by
  intro n member name refers
  obtain ⟨b, -, rfl⟩ := List.mem_map.mp member
  rw [silent b] at refers
  cases refers

/-- A function refers to names in its body only. -/
theorem Function.knows_of_body {env : Env} {f : Function}
    (known : ∀ s ∈ f.body, env.Knows s.nodes) : env.Knows f.nodes := by
  have body : env.Knows (Stmt.nodesAll f.body) := by
    intro n member
    rw [Stmt.nodesAll_eq_flatMap, List.mem_flatMap] at member
    obtain ⟨s, inside, inStmt⟩ := member
    exact known s inside n inStmt
  exact knows_cons_of_silent rfl (knows_append.mpr ⟨knows_bindings fun _ => rfl, body⟩)

/-- In a numbered program, the names that mean something are those declared. -/
theorem Program.exists_env_iff {p : Program} {f : Function} {table : NodeTable} {name : String}
    (numbered : Numbered table p.nodes) (member : f ∈ p.functions) :
    (∃ h, p.env f name = some h) ↔
      name ∈ (f.formals ++ f.locals).map (·.name) ∨ name ∈ p.functions.map (·.name) := by
  rw [Program.env]
  cases found : (f.formals ++ f.locals).find? (·.name == name) with
  | some b =>
    have inside := List.mem_of_find?_eq_some found
    have same : b.name = name := by simpa using List.find?_some found
    exact iff_of_true (Checker.numbered_bindings (numbered.function member) b inside)
      (.inl (List.mem_map.mpr ⟨b, inside, same⟩))
  | none =>
    have absent : name ∉ (f.formals ++ f.locals).map (·.name) := by
      intro declared
      obtain ⟨b, inside, rfl⟩ := List.mem_map.mp declared
      exact absurd (List.find?_eq_none.mp found b inside) (by simp)
    rw [or_iff_right absent]
    constructor
    · rintro ⟨h, means⟩
      obtain ⟨g, found', -⟩ := Option.bind_eq_some_iff.mp means
      have same : g.name = name := by simpa using List.find?_some found'
      exact List.mem_map.mpr ⟨g, List.mem_of_find?_eq_some found', same⟩
    · intro declared
      obtain ⟨g, inProgram, rfl⟩ := List.mem_map.mp declared
      cases found' : p.function? g.name with
      | none => exact absurd (List.find?_eq_none.mp found' g inProgram) (by simp)
      | some g' => exact numbered.function_id (List.mem_of_find?_eq_some found')

/-- In a numbered program that is well scoped, all names mean something. -/
theorem Program.WellScoped.knows {p : Program} {f : Function} {table : NodeTable}
    (wellScoped : p.WellScoped) (numbered : Numbered table p.nodes) (member : f ∈ p.functions) :
    (p.env f).Knows f.nodes := by
  refine Function.forall_reference_iff.mp fun a inParts name refers => ?_
  rw [exists_env_iff numbered member, ← f.bindings_eq]
  exact wellScoped.references f member a inParts name refers

/-- The error blames a node for referring to a name that means nothing. -/
def Env.Misses (env : Env) (nodes : List Node) (blame : TypeError) : Prop :=
  ∃ n ∈ nodes, ∃ name ∈ n.reference?, env name = none ∧
    blame = .unboundName name n.handle n.span

private theorem Env.Misses.mono {env : Env} {nodes nodes' : List Node} {blame : TypeError}
    (misses : env.Misses nodes blame) (subset : nodes ⊆ nodes') : env.Misses nodes' blame := by
  obtain ⟨n, member, rest⟩ := misses
  exact ⟨n, subset member, rest⟩

private theorem Env.Knows.not_misses {env : Env} {nodes : List Node} {blame : TypeError}
    (knows : env.Knows nodes) : ¬ env.Misses nodes blame := by
  rintro ⟨n, member, name, refers, unknown, -⟩
  obtain ⟨h, known⟩ := knows n member name refers
  rw [unknown] at known
  cases known

section Faults

open Constraint

variable {table : NodeTable} {env : Env} {blame : TypeError}

namespace Expr

mutual

private theorem misses_of_reject : ∀ {e : Expr}, Numbered table e.nodes →
    .reject blame ∈ e.constraints env → env.Misses e.nodes blame
  | num m _, own, fault | input m, own, fault | null m, own, fault => by
    rw [constraints, own.constrain (m := m) rfl, List.mem_singleton] at fault
    cases fault
  | var m name, own, fault | addrOf m name, own, fault => by
    rw [constraints, own.constrain (m := m) rfl, Env.constrain] at fault
    cases found : env name with
    | some declared =>
      rw [found, List.mem_singleton] at fault
      cases fault
    | none =>
      rw [found, List.mem_singleton] at fault
      cases fault
      exact ⟨_, List.mem_cons_self, name, rfl, found, rfl⟩
  | binary m op lhs rhs, own, fault => by
    obtain ⟨ownLeft, ownRight⟩ := numbered_append.mp (numbered_cons.mp own).2
    rw [constraints, own.constrain (m := m) rfl] at fault
    have inside : .reject blame ∈ lhs.constraints env ∨ .reject blame ∈ rhs.constraints env := by
      cases polymorphic : op.isPolymorphic <;> simpa [polymorphic] using fault
    rcases inside with inLeft | inRight
    · exact (misses_of_reject ownLeft inLeft).mono (by simp [nodes])
    · exact (misses_of_reject ownRight inRight).mono (by simp [nodes])
  | call m callee args, own, fault => by
    obtain ⟨ownCallee, ownArgs⟩ := numbered_append.mp (numbered_cons.mp own).2
    rw [constraints, own.constrain (m := m) rfl] at fault
    have inside : .reject blame ∈ callee.constraints env ∨
        .reject blame ∈ constraintsAll env args := by simpa using fault
    rcases inside with inCallee | inArgs
    · exact (misses_of_reject ownCallee inCallee).mono (by simp [nodes])
    · exact (misses_of_rejectAll ownArgs inArgs).mono (by simp [nodes])
  | alloc m e, own, fault | deref m e, own, fault | access m e _, own, fault => by
    rw [constraints, own.constrain (m := m) rfl] at fault
    have inside : .reject blame ∈ e.constraints env := by simpa using fault
    exact (misses_of_reject (numbered_cons.mp own).2 inside).mono (by simp [nodes])
  | record m fields, own, fault => by
    rw [constraints, own.constrain (m := m) rfl] at fault
    have inside : .reject blame ∈ constraintsFields env m.handle [] fields := by simpa using fault
    exact (misses_of_rejectFields (numbered_cons.mp own).2 inside).mono (by simp [nodes])

private theorem misses_of_rejectAll : ∀ {es : List Expr}, Numbered table (nodesAll es) →
    .reject blame ∈ constraintsAll env es → env.Misses (nodesAll es) blame
  | [], _, fault => by cases fault
  | e :: rest, own, fault => by
    obtain ⟨first, others⟩ := numbered_append.mp own
    rcases List.mem_append.mp fault with inFirst | inRest
    · exact (misses_of_reject first inFirst).mono (by simp [nodesAll])
    · exact (misses_of_rejectAll others inRest).mono (by simp [nodesAll])

private theorem misses_of_rejectFields : ∀ {fields : List (Binding × Expr)} {owner : Handle}
    {seen : List String}, Numbered table (nodesFields fields) →
    .reject blame ∈ constraintsFields env owner seen fields →
      env.Misses (nodesFields fields) blame
  | [], _, _, _, fault => by cases fault
  | (b, init) :: rest, owner, seen, own, fault => by
    obtain ⟨ownInit, ownRest⟩ := numbered_append.mp (numbered_cons.mp own).2
    rw [constraintsFields, own.constrain (m := b.mark) rfl] at fault
    split at fault
    · rw [List.mem_singleton] at fault
      cases fault
    · have inside : .reject blame ∈ init.constraints env ∨
          .reject blame ∈ constraintsFields env owner (b.name :: seen) rest := by
        simpa using fault
      rcases inside with inInit | inRest
      · exact (misses_of_reject ownInit inInit).mono (by simp [nodesFields])
      · exact (misses_of_rejectFields ownRest inRest).mono (by simp [nodesFields])

end

end Expr

namespace Stmt

mutual

theorem misses_of_reject {result : Handle} : ∀ {s : Stmt}, Numbered table s.nodes →
    .reject blame ∈ s.constraints env result → env.Misses s.nodes blame
  | declare .., _, fault => by cases fault
  | block _ body, own, fault =>
    (misses_of_rejectAll (numbered_cons.mp own).2 fault).mono (by simp [nodes])
  | assign _ lhs rhs, own, fault => by
    obtain ⟨ownLeft, ownRight⟩ := numbered_append.mp (numbered_cons.mp own).2
    have inside : .reject blame ∈ lhs.constraints env ∨ .reject blame ∈ rhs.constraints env := by
      simpa [constraints] using fault
    rcases inside with inLeft | inRight
    · exact (Expr.misses_of_reject ownLeft inLeft).mono (by simp [nodes])
    · exact (Expr.misses_of_reject ownRight inRight).mono (by simp [nodes])
  | loop _ cond body, own, fault => by
    obtain ⟨ownCond, ownBody⟩ := numbered_append.mp (numbered_cons.mp own).2
    have inside : .reject blame ∈ cond.constraints env ∨
        .reject blame ∈ body.constraints env result := by simpa [constraints] using fault
    rcases inside with inCond | inBody
    · exact (Expr.misses_of_reject ownCond inCond).mono (by simp [nodes])
    · exact (misses_of_reject ownBody inBody).mono (by simp [nodes])
  | branch _ cond yes none, own, fault => by
    obtain ⟨ownCond, ownYes⟩ := numbered_append.mp (numbered_cons.mp own).2
    have inside : .reject blame ∈ cond.constraints env ∨
        .reject blame ∈ yes.constraints env result := by simpa [constraints] using fault
    rcases inside with inCond | inYes
    · exact (Expr.misses_of_reject ownCond inCond).mono (by simp [nodes])
    · exact (misses_of_reject ownYes inYes).mono (by simp [nodes])
  | branch _ cond yes (some no), own, fault => by
    obtain ⟨ownFront, ownNo⟩ := numbered_append.mp (numbered_cons.mp own).2
    obtain ⟨ownCond, ownYes⟩ := numbered_append.mp ownFront
    have inside : .reject blame ∈ cond.constraints env ∨
        .reject blame ∈ yes.constraints env result ∨
          .reject blame ∈ no.constraints env result := by
      simpa [constraints, or_assoc] using fault
    rcases inside with inCond | inYes | inNo
    · exact (Expr.misses_of_reject ownCond inCond).mono (by simp [nodes])
    · exact (misses_of_reject ownYes inYes).mono fun _ inside => by simp [nodes, inside]
    · exact (misses_of_reject ownNo inNo).mono fun _ inside => by simp [nodes, inside]
  | output _ arg, own, fault | error _ arg, own, fault | ret _ arg, own, fault => by
    have inside : .reject blame ∈ arg.constraints env := by simpa [constraints] using fault
    exact (Expr.misses_of_reject (numbered_cons.mp own).2 inside).mono (by simp [nodes])

private theorem misses_of_rejectAll {result : Handle} : ∀ {body : List Stmt},
    Numbered table (nodesAll body) → .reject blame ∈ constraintsAll env result body →
      env.Misses (nodesAll body) blame
  | [], _, fault => by cases fault
  | s :: rest, own, fault => by
    obtain ⟨first, others⟩ := numbered_append.mp own
    rcases List.mem_append.mp fault with inFirst | inRest
    · exact (misses_of_reject first inFirst).mono (by simp [nodesAll])
    · exact (misses_of_rejectAll others inRest).mono (by simp [nodesAll])

end

/-- The constraints of a numbered statement whose names mean something are about types. -/
theorem faultless_constraints {result : Handle} {s : Stmt} (own : Numbered table s.nodes)
    (known : env.Knows s.nodes) : ∀ con ∈ s.constraints env result, con.Faultless := by
  intro con member
  cases con with
  | reject fault => exact known.not_misses (misses_of_reject own member)
  | _ => trivial

end Stmt

namespace Expr

mutual

private theorem knows_of_possible : ∀ {e : Expr}, Numbered table e.nodes →
    (∀ con ∈ e.constraints env, ¬ con.Impossible) → env.Knows e.nodes
  | num .., _, _ | input .., _, _ | null .., _, _ =>
    knows_cons_of_silent rfl (fun _ member => by cases member)
  | var m name, own, possible | addrOf m name, own, possible => by
    refine knows_cons.mpr ⟨fun name' refers => ?_, fun _ member => by cases member⟩
    obtain rfl : name = name' := Option.some.inj refers
    cases found : env name with
    | some declared => exact ⟨declared, rfl⟩
    | none =>
      rw [constraints, own.constrain (m := m) rfl, Env.constrain, found] at possible
      exact absurd trivial (possible _ List.mem_cons_self)
  | binary m op lhs rhs, own, possible => by
    obtain ⟨ownLeft, ownRight⟩ := numbered_append.mp (numbered_cons.mp own).2
    rw [constraints, own.constrain (m := m) rfl] at possible
    simp only [List.forall_mem_append] at possible
    exact knows_cons_of_silent rfl (knows_append.mpr
      ⟨knows_of_possible ownLeft possible.1.1.1, knows_of_possible ownRight possible.1.1.2⟩)
  | call m callee args, own, possible => by
    obtain ⟨ownCallee, ownArgs⟩ := numbered_append.mp (numbered_cons.mp own).2
    rw [constraints, own.constrain (m := m) rfl] at possible
    simp only [List.forall_mem_append] at possible
    exact knows_cons_of_silent rfl (knows_append.mpr
      ⟨knows_of_possible ownCallee possible.1.1, knowsAll_of_possible ownArgs possible.1.2⟩)
  | alloc m _, own, possible | deref m _, own, possible | access m _ _, own, possible => by
    rw [constraints, own.constrain (m := m) rfl, List.forall_mem_append] at possible
    exact knows_cons_of_silent rfl (knows_of_possible (numbered_cons.mp own).2 possible.1)
  | record m fields, own, possible => by
    rw [constraints, own.constrain (m := m) rfl, List.forall_mem_append] at possible
    exact knows_cons_of_silent rfl (knowsFields_of_possible (numbered_cons.mp own).2 possible.1)

private theorem knowsAll_of_possible : ∀ {es : List Expr}, Numbered table (nodesAll es) →
    (∀ con ∈ constraintsAll env es, ¬ con.Impossible) → env.Knows (nodesAll es)
  | [], _, _ => fun _ member => by cases member
  | e :: rest, own, possible => by
    obtain ⟨first, others⟩ := numbered_append.mp own
    rw [constraintsAll, List.forall_mem_append] at possible
    exact knows_append.mpr
      ⟨knows_of_possible first possible.1, knowsAll_of_possible others possible.2⟩

private theorem knowsFields_of_possible : ∀ {fields : List (Binding × Expr)} {owner : Handle}
    {seen : List String}, Numbered table (nodesFields fields) →
    (∀ con ∈ constraintsFields env owner seen fields, ¬ con.Impossible) →
      env.Knows (nodesFields fields)
  | [], _, _, _, _ => fun _ member => by cases member
  | (b, init) :: rest, owner, seen, own, possible => by
    obtain ⟨ownInit, ownRest⟩ := numbered_append.mp (numbered_cons.mp own).2
    rw [constraintsFields, own.constrain (m := b.mark) rfl] at possible
    split at possible
    · exact absurd trivial (possible _ List.mem_cons_self)
    · simp only [List.forall_mem_append] at possible
      exact knows_cons_of_silent rfl (knows_append.mpr
        ⟨knows_of_possible ownInit possible.1.1, knowsFields_of_possible ownRest possible.2⟩)

end

end Expr

namespace Stmt

mutual

theorem knows_of_possible {result : Handle} : ∀ {s : Stmt}, Numbered table s.nodes →
    (∀ con ∈ s.constraints env result, ¬ con.Impossible) → env.Knows s.nodes
  | declare .., _, _ => knows_cons_of_silent rfl (knows_bindings fun _ => rfl)
  | block _ body, own, possible =>
    knows_cons_of_silent rfl (knowsAll_of_possible (numbered_cons.mp own).2 possible)
  | assign _ lhs rhs, own, possible => by
    obtain ⟨ownLeft, ownRight⟩ := numbered_append.mp (numbered_cons.mp own).2
    simp only [constraints, List.forall_mem_append] at possible
    exact knows_cons_of_silent rfl (knows_append.mpr
      ⟨Expr.knows_of_possible ownLeft possible.1.1, Expr.knows_of_possible ownRight possible.1.2⟩)
  | loop _ cond body, own, possible => by
    obtain ⟨ownCond, ownBody⟩ := numbered_append.mp (numbered_cons.mp own).2
    simp only [constraints, List.forall_mem_append] at possible
    exact knows_cons_of_silent rfl (knows_append.mpr
      ⟨Expr.knows_of_possible ownCond possible.1.1, knows_of_possible ownBody possible.2⟩)
  | branch _ cond yes none, own, possible => by
    obtain ⟨ownCond, ownYes⟩ := numbered_append.mp (numbered_cons.mp own).2
    simp only [constraints, List.forall_mem_append] at possible
    exact knows_cons_of_silent rfl (knows_append.mpr
      ⟨Expr.knows_of_possible ownCond possible.1.1, knows_of_possible ownYes possible.2⟩)
  | branch _ cond yes (some no), own, possible => by
    obtain ⟨ownFront, ownNo⟩ := numbered_append.mp (numbered_cons.mp own).2
    obtain ⟨ownCond, ownYes⟩ := numbered_append.mp ownFront
    simp only [constraints, List.forall_mem_append] at possible
    exact knows_cons_of_silent rfl (knows_append.mpr ⟨knows_append.mpr
      ⟨Expr.knows_of_possible ownCond possible.1.1.1, knows_of_possible ownYes possible.1.2⟩,
      knows_of_possible ownNo possible.2⟩)
  | output _ arg, own, possible | error _ arg, own, possible | ret _ arg, own, possible => by
    simp only [constraints, List.forall_mem_append] at possible
    exact knows_cons_of_silent rfl (Expr.knows_of_possible (numbered_cons.mp own).2 possible.1)

private theorem knowsAll_of_possible {result : Handle} : ∀ {body : List Stmt},
    Numbered table (nodesAll body) →
    (∀ con ∈ constraintsAll env result body, ¬ con.Impossible) → env.Knows (nodesAll body)
  | [], _, _ => fun _ member => by cases member
  | s :: rest, own, possible => by
    obtain ⟨first, others⟩ := numbered_append.mp own
    rw [constraintsAll, List.forall_mem_append] at possible
    exact knows_append.mpr
      ⟨knows_of_possible first possible.1, knowsAll_of_possible others possible.2⟩

end

end Stmt

end Faults

private theorem one_lt_count_of_mem_earlier {α : Type} {key : α → String} {xs done rest : List α}
    {x : α} (split : xs = done ++ x :: rest) (repeated : key x ∈ done.map key) :
    1 < (xs.map key).count (key x) := by
  have earlier : 0 < (done.map key).count (key x) := List.count_pos_iff.mpr repeated
  rw [split, List.map_append, List.map_cons, List.count_append, List.count_cons_self]
  omega

namespace Checker

variable {table : NodeTable} {q : Program} {f : Function} {done : List Function} {c : Checker}
  {e : TypeError}

theorem Repeats.misnames (repeats : Repeats (f.formals ++ f.locals) e) (member : f ∈ q.functions) :
    q.Misnames e := by
  obtain ⟨done, b, rest, h, split, twice, carried, rfl⟩ := repeats
  rw [← f.bindings_eq] at split
  refine .inr ⟨f, member, b, by simp [split], rfl, ?_, one_lt_count_of_mem_earlier split twice⟩
  rw [← carried]

private theorem exists_direct_declareFunction (numbers : c.Numbers f)
    (newName : ¬ c.functions.contains f.name) (fresh : c.returns[f.mark.handle]? = none) :
    ∃ m : CheckM Unit, Direct m ∧ declareFunction f c = m c := by
  let sign : CheckM Handle := mint f.mark.span >>= fun slot => do
    modify fun c => { c with returns := c.returns.insert f.mark.handle slot }
    bindAt f.mark.span f.mark.handle (.function (f.formals.map (·.mark.handle)) slot)
    return slot
  let note : CheckM Unit :=
    modify fun c => { c with functions := c.functions.insert f.name f.mark.handle }
  refine ⟨note >>= fun _ => discard sign, ?_, ?_⟩
  · refine (direct_modify fun _ => rfl).bind fun _ => direct_discard ((direct_mint _).bind ?_)
    exact fun slot => (direct_modify fun _ => rfl).bind fun _ => (direct_bindAt ..).bind fun _ =>
      direct_pure slot
  · let c₁ : Checker := { c with functions := c.functions.insert f.name f.mark.handle }
    have signed : signature f c₁ = sign c₁ :=
      signature_eq_mint numbers.carried numbers.numbered fresh
    rw [declareFunction_eq numbers.carried, if_neg newName]
    change EStateM.map _ (signature f) c₁ = EStateM.map _ sign c₁
    rw [EStateM.map, EStateM.map, signed]

private theorem ending_declareFunction (declared : Declared table done c)
    (own : Numbered table f.nodes) (earlier : ∀ g ∈ done, ∃ h, g.mark.id = some h)
    (unused : f.mark.handle ∉ done.map (·.mark.handle)) :
    c.Ending (declareFunction f) (fun _ c' => f.name ∉ done.map (·.name) ∧
        Declared table (done ++ [f]) c' ∧ c'.waiting = c.waiting) fun e _ =>
      e.isMismatch ∨ f.name ∈ done.map (·.name) ∧
        e = .duplicateName f.name f.mark.handle f.mark.span := by
  have numbers := declared.numbers own
  have known_iff := declared.functions.contains_iff (n := f.name) earlier
  have names : c.Ending (declareFunction f) (fun _ c' => f.name ∉ done.map (·.name) ∧
      c'.waiting = c.waiting) fun e _ => e.isMismatch ∨ f.name ∈ done.map (·.name) ∧
        e = .duplicateName f.name f.mark.handle f.mark.span := by
    by_cases known : f.name ∈ done.map (·.name)
    · rw [Ending, declareFunction_eq numbers.carried, if_pos (known_iff.mpr known)]
      exact .inr ⟨known, rfl⟩
    · -- signing a function of a new name is direct work, which only a conflict can end
      obtain ⟨m, direct, same⟩ := exists_direct_declareFunction numbers (known_iff.not.mpr known)
        (declared.returns_eq_none unused)
      exact Ending.of_eq (direct.ending.imp (fun _ _ waiting => ⟨known, waiting⟩) fun _ _ => .inl)
        same
  exact (names.and (adding_declareFunction declared own earlier unused)).post
    fun _ _ ends => ⟨ends.1.1, ends.2.2, ends.1.2⟩

/-- Declaring the functions of a program finds their names distinct. -/
theorem ending_declareFunctions (numbered : Numbered table q.nodes)
    (nodup : (q.functions.map (·.mark.handle)).Nodup) :
    ({ nodes := table } : Checker).Ending (declareFunctions q)
      (fun _ c => (q.functions.map (·.name)).Nodup ∧ Declared table q.functions c ∧ c.waiting = [])
      fun e _ => e.isMismatch ∨ q.Misnames e := by
  let I (done : List Function) (c : Checker) : Prop :=
    (done.map (·.name)).Nodup ∧ Declared table done c ∧ c.waiting = []
  refine ending_forM (I := I) ?_ ⟨List.nodup_nil, declared_start table, rfl⟩
  rintro done f rest split c ⟨distinct, declared, idle⟩
  have member : f ∈ q.functions := by simp [split]
  have own := numbered.function member
  have earlier : ∀ g ∈ done, ∃ h, g.mark.id = some h := fun g inDone =>
    numbered.function_id (by simp [split, inDone])
  refine (ending_declareFunction declared own earlier (not_mem_earlier nodup split)).imp ?_ ?_
  · exact fun _ c' ends => ⟨nodup_map_concat distinct ends.1, ends.2.1, ends.2.2.trans idle⟩
  · rintro e _ (mismatch | ⟨repeated, rfl⟩)
    · exact .inl mismatch
    · refine .inr (.inl ⟨f, member, rfl, ?_, one_lt_count_of_mem_earlier split repeated⟩)
      rw [← (declared.numbers own).carried]

end Checker

end TypeInference
