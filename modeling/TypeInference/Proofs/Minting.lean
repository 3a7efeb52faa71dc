import TypeInference.Proofs.Constraints

/-!
# Handles that constraints mint

Only the constraint of a null node mints a handle. So the constraints of a numbered tree mint one
for each null node, in the order of the nodes. A fault of the tree would cut the list short, but
then the list is never solved.
-/

set_option autoImplicit false

namespace TypeInference

/-- The places of the null nodes among the given ones. -/
def nullSpans (nodes : List Node) : List Span := (nodes.filter (·.kind = .null)).map (·.span)

theorem nullSpans_append (nodes rest : List Node) :
    nullSpans (nodes ++ rest) = nullSpans nodes ++ nullSpans rest := by
  simp [nullSpans]

theorem nullSpans_cons {n : Node} (other : n.kind ≠ .null) (rest : List Node) :
    nullSpans (n :: rest) = nullSpans rest := by
  simp [nullSpans, other]

/-- The places that a constraint mints a handle for. -/
def Constraint.mints : Constraint → List Span
  | null _ span => [span]
  | bind .. | unify .. | call .. | deref .. | access _ | repeatedField .. | reject _ => []

open Constraint

variable {table : NodeTable} {env : Env}

namespace Expr

mutual

theorem mints_constraints : ∀ {e : Expr}, Numbered table e.nodes →
    (∀ con ∈ e.constraints env, ¬ con.Impossible) →
    (e.constraints env).flatMap mints = nullSpans e.nodes
  | num m _, own, _ | input m, own, _ | null m, own, _ => by
    rw [constraints, own.constrain (m := m) rfl]
    rfl
  | var m name, own, possible | addrOf m name, own, possible => by
    rw [constraints, own.constrain (m := m) rfl, Env.constrain] at possible ⊢
    cases found : env name with
    | some declared => rfl
    | none =>
      rw [found] at possible
      exact absurd trivial (possible _ List.mem_cons_self)
  | binary m op lhs rhs, own, possible => by
    obtain ⟨ownLeft, ownRight⟩ := numbered_append.mp (numbered_cons.mp own).2
    rw [constraints, own.constrain (m := m) rfl] at possible ⊢
    simp only [List.forall_mem_append] at possible
    have operands : (if op.isPolymorphic then [Constraint.unify lhs.handle rhs.handle m.span]
        else [.bind lhs.handle .int lhs.span, .bind rhs.handle .int rhs.span]).flatMap mints =
        [] := by
      split <;> rfl
    rw [List.flatMap_append, List.flatMap_append, List.flatMap_append, operands,
      mints_constraints ownLeft possible.1.1.1, mints_constraints ownRight possible.1.1.2, nodes,
      nullSpans_cons (by simp [node, Mark.node, kind]), nullSpans_append]
    simp [mints]
  | call m callee args, own, possible => by
    obtain ⟨ownCallee, ownArgs⟩ := numbered_append.mp (numbered_cons.mp own).2
    rw [constraints, own.constrain (m := m) rfl] at possible ⊢
    simp only [List.forall_mem_append] at possible
    rw [List.flatMap_append, List.flatMap_append, mints_constraints ownCallee possible.1.1,
      mintsAll_constraints ownArgs possible.1.2, nodes,
      nullSpans_cons (by simp [node, Mark.node, kind]), nullSpans_append]
    simp [mints]
  | alloc m _, own, possible | deref m _, own, possible | access m _ _, own, possible => by
    rw [constraints, own.constrain (m := m) rfl] at possible ⊢
    rw [List.forall_mem_append] at possible
    rw [List.flatMap_append, mints_constraints (numbered_cons.mp own).2 possible.1, nodes,
      nullSpans_cons (by simp [node, Mark.node, kind])]
    simp [mints]
  | record m fields, own, possible => by
    rw [constraints, own.constrain (m := m) rfl] at possible ⊢
    rw [List.forall_mem_append] at possible
    rw [List.flatMap_append, mintsFields_constraints (numbered_cons.mp own).2 possible.1, nodes,
      nullSpans_cons (by simp [node, Mark.node, kind])]
    simp [mints]

private theorem mintsAll_constraints : ∀ {es : List Expr}, Numbered table (nodesAll es) →
    (∀ con ∈ constraintsAll env es, ¬ con.Impossible) →
    (constraintsAll env es).flatMap mints = nullSpans (nodesAll es)
  | [], _, _ => rfl
  | e :: rest, own, possible => by
    obtain ⟨first, others⟩ := numbered_append.mp own
    rw [constraintsAll, List.forall_mem_append] at possible
    rw [constraintsAll, List.flatMap_append, mints_constraints first possible.1,
      mintsAll_constraints others possible.2, nodesAll, nullSpans_append]

private theorem mintsFields_constraints : ∀ {fields : List (Binding × Expr)} {owner : Handle}
    {seen : List String}, Numbered table (nodesFields fields) →
    (∀ con ∈ constraintsFields env owner seen fields, ¬ con.Impossible) →
    (constraintsFields env owner seen fields).flatMap mints = nullSpans (nodesFields fields)
  | [], _, _, _, _ => rfl
  | (b, init) :: rest, owner, seen, own, possible => by
    obtain ⟨ownInit, ownRest⟩ := numbered_append.mp (numbered_cons.mp own).2
    rw [constraintsFields, own.constrain (m := b.mark) rfl] at possible ⊢
    split at possible
    · exact absurd trivial (possible _ List.mem_cons_self)
    · rename_i new
      simp only [List.forall_mem_append] at possible
      rw [if_neg new, List.flatMap_append, List.flatMap_append,
        mints_constraints ownInit possible.1.1, mintsFields_constraints ownRest possible.2,
        nodesFields, nullSpans_cons (by simp [Binding.node, Mark.node]), nullSpans_append]
      simp [mints]

end

end Expr

namespace Stmt

private theorem nullSpans_node (s : Stmt) (rest : List Node) :
    nullSpans (s.node :: rest) = nullSpans rest :=
  nullSpans_cons (by cases s <;> simp [node, Mark.node, kind]) rest

mutual

/-- A statement mints what the expressions in it mint. -/
theorem mints_constraints {result : Handle} : ∀ {s : Stmt}, Numbered table s.nodes →
    (∀ con ∈ s.constraints env result, ¬ con.Impossible) →
    (s.constraints env result).flatMap mints = nullSpans s.nodes
  | declare m names, _, _ => by
    have locals : nullSpans (names.map (·.node .localVar)) = [] := by
      simp [nullSpans, List.filter_map, Function.comp_def, Binding.node, Mark.node]
    rw [nodes, nullSpans_node, locals]
    rfl
  | block _ body, own, possible => by
    rw [constraints, mintsAll_constraints (numbered_cons.mp own).2 possible, nodes,
      nullSpans_node]
  | assign _ lhs rhs, own, possible => by
    obtain ⟨ownLeft, ownRight⟩ := numbered_append.mp (numbered_cons.mp own).2
    simp only [constraints, List.forall_mem_append] at possible
    rw [constraints, List.flatMap_append, List.flatMap_append,
      Expr.mints_constraints ownLeft possible.1.1, Expr.mints_constraints ownRight possible.1.2,
      nodes, nullSpans_node, nullSpans_append]
    simp [mints]
  | loop _ cond body, own, possible => by
    obtain ⟨ownCond, ownBody⟩ := numbered_append.mp (numbered_cons.mp own).2
    simp only [constraints, List.forall_mem_append] at possible
    rw [constraints, List.flatMap_append, List.flatMap_append,
      Expr.mints_constraints ownCond possible.1.1, mints_constraints ownBody possible.2, nodes,
      nullSpans_node, nullSpans_append]
    simp [mints]
  | branch _ cond yes none, own, possible => by
    obtain ⟨ownCond, ownYes⟩ := numbered_append.mp (numbered_cons.mp own).2
    simp only [constraints, List.forall_mem_append] at possible
    rw [constraints, List.flatMap_append, List.flatMap_append,
      Expr.mints_constraints ownCond possible.1.1, mints_constraints ownYes possible.2, nodes,
      nullSpans_node, nullSpans_append]
    simp [mints]
  | branch _ cond yes (some no), own, possible => by
    obtain ⟨ownFront, ownNo⟩ := numbered_append.mp (numbered_cons.mp own).2
    obtain ⟨ownCond, ownYes⟩ := numbered_append.mp ownFront
    simp only [constraints, List.forall_mem_append] at possible
    rw [constraints, List.flatMap_append, List.flatMap_append, List.flatMap_append,
      Expr.mints_constraints ownCond possible.1.1.1, mints_constraints ownYes possible.1.2,
      mints_constraints ownNo possible.2, nodes,
      nullSpans_node, nullSpans_append, nullSpans_append]
    simp [mints]
  | output _ arg, own, possible | error _ arg, own, possible | ret _ arg, own, possible => by
    simp only [constraints, List.forall_mem_append] at possible
    rw [constraints, List.flatMap_append,
      Expr.mints_constraints (numbered_cons.mp own).2 possible.1, nodes,
      nullSpans_node]
    simp [mints]

private theorem mintsAll_constraints {result : Handle} : ∀ {body : List Stmt},
    Numbered table (nodesAll body) →
    (∀ con ∈ constraintsAll env result body, ¬ con.Impossible) →
    (constraintsAll env result body).flatMap mints = nullSpans (nodesAll body)
  | [], _, _ => rfl
  | s :: rest, own, possible => by
    obtain ⟨first, others⟩ := numbered_append.mp own
    rw [constraintsAll, List.forall_mem_append] at possible
    rw [constraintsAll, List.flatMap_append, mints_constraints first possible.1,
      mintsAll_constraints others possible.2, nodesAll, nullSpans_append]

end

end Stmt

end TypeInference
