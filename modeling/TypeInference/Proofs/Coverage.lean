import TypeInference.Proofs.Scoping
import TypeInference.Proofs.Visiting

/-!
# No node is passed over

Checking a program asks every part of it but the statements for its handle, whatever handles the
tree carries: functions where they are declared, formals and locals where their function is entered,
and all other parts through the constraints of the bodies. So a program that is accepted has handles
everywhere but at its statements, and a node that is said to have none is there and has none. The
handles of statements are never asked for, so they change nothing.
-/

set_option autoImplicit false

namespace TypeInference

/-- The kinds of statements. -/
def NodeKind.isStmt : NodeKind → Bool
  | declare | block | assign | loop | branch | output | error | ret => true
  | _ => false

/-- A node that needs a handle and has none. -/
def Node.IsMissing (n : Node) : Prop := n.kind.isStmt = false ∧ n.id = none

/-- An error that says of a node that it has no handle is right about one of the nodes. -/
def Blames (nodes : List Node) (e : TypeError) : Prop :=
  ∀ kind span, e = .unassigned kind span →
    ∃ n ∈ nodes, n.IsMissing ∧ n.kind = kind ∧ n.span = span

section Blames

variable {nodes nodes' : List Node} {e : TypeError}

private theorem Blames.mono (blames : Blames nodes e) (subset : nodes ⊆ nodes') :
    Blames nodes' e := by
  intro kind span equal
  obtain ⟨n, member, rest⟩ := blames kind span equal
  exact ⟨n, subset member, rest⟩

private theorem blames_of_mismatch (mismatch : e.isMismatch) : Blames nodes e := by
  rintro kind span rfl
  cases mismatch

private theorem blames_unassigned {m : Mark} {kind : NodeKind} {name : Option String}
    (needed : kind.isStmt = false) (inside : m.node kind name ∈ nodes) (missing : m.id = none) :
    Blames nodes (.unassigned kind m.span) := by
  intro kind' span' equal
  cases equal
  exact ⟨_, inside, ⟨needed, missing⟩, rfl, rfl⟩

end Blames

/-! ### What constraints ask for -/

/-- Constraints ask for the handles of nodes: where types can meet them all, no node other than a
local is missing its handle, and a node that they reject for it is one of these. -/
structure Demands (cs : List Constraint) (nodes : List Node) : Prop where
  found : (∀ con ∈ cs, ¬ con.Impossible) → ∀ n ∈ nodes, n.IsMissing → n.kind = .localVar
  blames : ∀ e, .reject e ∈ cs → Blames nodes e

section Demands

variable {cs cs' : List Constraint} {nodes nodes' : List Node}

private theorem demands_nil (possible : ∀ con ∈ cs, ¬ con.Impossible) : Demands cs [] where
  found _ _ member := by cases member
  blames _ member := absurd trivial (possible _ member)

private theorem Demands.append (first : Demands cs nodes) (second : Demands cs' nodes') :
    Demands (cs ++ cs') (nodes ++ nodes') where
  found possible := by
    rw [List.forall_mem_append] at possible
    exact List.forall_mem_append.mpr ⟨first.found possible.1, second.found possible.2⟩
  blames e member := by
    rcases List.mem_append.mp member with inFirst | inSecond
    · exact (first.blames e inFirst).mono (List.subset_append_left _ _)
    · exact (second.blames e inSecond).mono (List.subset_append_right _ _)

private theorem Demands.followed (demands : Demands cs nodes)
    (possible : ∀ con ∈ cs', ¬ con.Impossible) : Demands (cs ++ cs') nodes := by
  have both := demands.append (demands_nil possible)
  rwa [List.append_nil] at both

private theorem Demands.stmt {n : Node} (isStmt : n.kind.isStmt) (demands : Demands cs nodes) :
    Demands cs (n :: nodes) where
  found possible := by
    refine List.forall_mem_cons.mpr ⟨fun missing => ?_, demands.found possible⟩
    rw [missing.1] at isStmt
    cases isStmt
  blames e member := (demands.blames e member).mono (List.subset_cons_self _ _)

private theorem Demands.constrain {m : Mark} {kind : NodeKind} {name : Option String}
    {constraints : Handle → List Constraint} (needed : kind.isStmt = false)
    (inside : ∀ id, Demands (constraints id) nodes) :
    Demands (m.constrain kind constraints) (m.node kind name :: nodes) := by
  rw [Mark.constrain]
  cases carried : m.id with
  | none =>
    refine ⟨fun possible => absurd trivial (possible _ List.mem_cons_self), fun e member => ?_⟩
    rw [List.mem_singleton] at member
    cases member
    exact blames_unassigned needed List.mem_cons_self carried
  | some id =>
    refine ⟨fun possible => ?_, fun e member => ?_⟩
    · refine List.forall_mem_cons.mpr ⟨fun missing => ?_, (inside id).found possible⟩
      rw [Node.IsMissing, Mark.node, carried] at missing
      cases missing.2
    · exact ((inside id).blames e member).mono (List.subset_cons_self _ _)

private theorem demands_env {env : Env} {name : String} {node : Handle} {span : Span}
    {constraints : Handle → List Constraint}
    (possible : ∀ declared, ∀ con ∈ constraints declared, ¬ con.Impossible) :
    Demands (env.constrain name node span constraints) [] := by
  rw [Env.constrain]
  cases env name with
  | none =>
    refine ⟨fun _ _ member => (by cases member), fun e member kind span equal => ?_⟩
    rw [List.mem_singleton] at member
    cases member
    cases equal
  | some declared => exact demands_nil (possible declared)

end Demands

namespace Expr

open Constraint

variable {env : Env}

mutual

private theorem demands_constraints : ∀ e : Expr, Demands (e.constraints env) e.nodes
  | num .. | input .. | null .. =>
    Demands.constrain rfl fun _ => demands_nil (by simp [Impossible])
  | var .. | addrOf .. =>
    Demands.constrain rfl fun _ => demands_env fun _ => by simp [Impossible]
  | binary m op lhs rhs => by
    refine Demands.constrain rfl fun id => ?_
    refine (((demands_constraints lhs).append (demands_constraints rhs)).followed ?_).followed
      (by simp [Impossible])
    cases op.isPolymorphic <;> simp [Impossible]
  | call m callee args => by
    refine Demands.constrain rfl fun id => ?_
    exact ((demands_constraints callee).append (demandsAll_constraints args)).followed
      (by simp [Impossible])
  | alloc m e | deref m e | access m e _ =>
    Demands.constrain rfl fun _ => (demands_constraints e).followed (by simp [Impossible])
  | record m fields =>
    Demands.constrain rfl fun _ => (demandsFields_constraints fields).followed
      (by simp [Impossible])

private theorem demandsAll_constraints :
    ∀ es : List Expr, Demands (constraintsAll env es) (nodesAll es)
  | [] => demands_nil (by simp [constraintsAll])
  | e :: rest => (demands_constraints e).append (demandsAll_constraints rest)

private theorem demandsFields_constraints {owner : Handle} {seen : List String} :
    ∀ fields : List (Binding × Expr),
      Demands (constraintsFields env owner seen fields) (nodesFields fields)
  | [] => demands_nil (by simp [constraintsFields])
  | (b, init) :: rest => by
    refine Demands.constrain rfl fun id => ?_
    split
    · -- what comes after a field of a name that was there is never looked at
      exact ⟨fun possible => absurd trivial (possible _ List.mem_cons_self), by simp⟩
    · exact ((demands_constraints init).followed (by simp [Impossible])).append
        (demandsFields_constraints rest)

end

end Expr

namespace Stmt

open Constraint

variable {env : Env} {result : Handle}

mutual

private theorem demands_constraints : ∀ s : Stmt, Demands (s.constraints env result) s.nodes
  | declare m names => by
    refine Demands.stmt rfl ⟨fun _ n member _ => ?_, by simp [constraints]⟩
    obtain ⟨b, -, rfl⟩ := List.mem_map.mp member
    rfl
  | block _ body => Demands.stmt rfl (demandsAll_constraints body)
  | assign _ lhs rhs => Demands.stmt rfl <|
    ((Expr.demands_constraints lhs).append (Expr.demands_constraints rhs)).followed
      (by simp [Impossible])
  | loop _ cond body => Demands.stmt rfl <|
    ((Expr.demands_constraints cond).followed (by simp [Impossible])).append
      (demands_constraints body)
  | branch _ cond yes none => Demands.stmt rfl <|
    ((Expr.demands_constraints cond).followed (by simp [Impossible])).append
      (demands_constraints yes)
  | branch _ cond yes (some no) => Demands.stmt rfl <|
    (((Expr.demands_constraints cond).followed (by simp [Impossible])).append
      (demands_constraints yes)).append (demands_constraints no)
  | output _ arg | error _ arg | ret _ arg => Demands.stmt rfl <|
    (Expr.demands_constraints arg).followed (by simp [Impossible])

private theorem demandsAll_constraints : ∀ body : List Stmt,
    Demands (constraintsAll env result body) (nodesAll body)
  | [] => demands_nil (by simp [constraintsAll])
  | s :: rest => (demands_constraints s).append (demandsAll_constraints rest)

end

end Stmt

/-! ### What the steps of a check ask for -/

/-- Run from any checker, a step ends with the fact established, or with an error that blames none
but a node without handle. -/
def Finds {α : Type} (m : CheckM α) (fact : Prop) (nodes : List Node) : Prop :=
  ∀ c : Checker, c.Ending m (fun _ _ => fact) fun e _ => Blames nodes e

private theorem Finds.mono {α : Type} {m : CheckM α} {fact : Prop} {nodes nodes' : List Node}
    (finds : Finds m fact nodes) (subset : nodes ⊆ nodes') : Finds m fact nodes' :=
  fun c => (finds c).imp (fun _ _ => id) fun _ _ blames => blames.mono subset

private theorem finds_forM {β : Type} {xs : List β} {step : β → CheckM Unit} {fact : β → Prop}
    {nodes : List Node} (each : ∀ x ∈ xs, Finds (step x) (fact x) nodes) :
    Finds (xs.forM step) (∀ x ∈ xs, fact x) nodes := by
  intro c
  refine Checker.ending_forM (I := fun done _ => ∀ x ∈ done, fact x) ?_ (by simp)
  intro done x rest split c found
  refine (each x (by simp [split]) c).post fun _ _ last => ?_
  exact List.forall_mem_append.mpr ⟨found, List.forall_mem_singleton.mpr last⟩

namespace Checker

private theorem finds_require {nodes : List Node} {m : Mark} {kind : NodeKind}
    {name : Option String} (needed : kind.isStmt = false) (inside : m.node kind name ∈ nodes) :
    Finds (require m kind) (m.id ≠ none) nodes := by
  intro c
  rw [require]
  cases carried : m.id with
  | none => exact ending_throw (blames_unassigned needed inside carried)
  | some id => exact ending_pure (Option.some_ne_none id)

private theorem finds_signature (f : Function) :
    Finds (signature f) (f.mark.id ≠ none) f.nodes := by
  intro c
  refine (finds_require rfl List.mem_cons_self c).bind fun id c found => ending_get ?_
  cases c.returns[id]? with
  | some result => exact ending_pure found
  | none =>
    -- a function that is signed here has its formals looked at, but is signed only once
    have formals : c.Ending (f.formals.mapM fun b => require b.mark .formal) (fun _ _ => True)
        fun e _ => Blames f.nodes e :=
      ending_mapM_each (fun b member c _ =>
        (finds_require rfl (Function.formal_mem_nodes member) c).post fun _ _ _ => trivial) trivial
    refine formals.bind fun params c _ => ?_
    let c₁ : Checker := { c with
      nodes := c.nodes.mint f.mark.span, returns := c.returns.insert id c.nodes.size }
    have bound := (direct_bindAt f.mark.span id (.function params c.nodes.size)).ending (c := c₁)
    exact (bound.imp (fun _ _ ends => ends) fun _ _ => blames_of_mismatch).bind fun _ _ _ =>
      ending_pure found

private theorem finds_declareFunction (f : Function) :
    Finds (declareFunction f) (f.mark.id ≠ none) f.nodes := by
  intro c
  refine (finds_require rfl List.mem_cons_self c).bind fun id c found => ending_get ?_
  dsimp only
  split
  · exact fun _ _ equal => by cases equal
  · exact ending_modify (ending_discard (finds_signature f _))

private theorem finds_declare {nodes : List Node} {kind : NodeKind} {b : Binding}
    (needed : kind.isStmt = false) (inside : b.node kind ∈ nodes) :
    Finds (declare kind b) (b.mark.id ≠ none) nodes := by
  intro c
  refine (finds_require needed inside c).bind fun id c found => ending_get (ending_modify ?_)
  split
  · exact fun _ _ equal => by cases equal
  · exact ending_pure found

private theorem finds_enterFunction (f : Function) :
    Finds (enterFunction f) (∀ b ∈ f.formals ++ f.locals, b.mark.id ≠ none) f.nodes := by
  have formals : Finds (f.formals.forM (declare .formal)) (∀ b ∈ f.formals, b.mark.id ≠ none)
      f.nodes := finds_forM fun b member => finds_declare rfl (Function.formal_mem_nodes member)
  have locals : Finds (f.locals.forM (declare .localVar)) (∀ b ∈ f.locals, b.mark.id ≠ none)
      f.nodes := finds_forM fun b member => finds_declare rfl
    (List.mem_cons_of_mem _ (List.mem_append_right _ (Stmt.node_mem_of_localsAll member)))
  intro c
  refine ending_modify ((finds_signature f _).bind fun result c _ => ending_modify ?_)
  exact (formals _).bind fun _ c inFormals => (locals c).bind fun _ _ inLocals =>
    ending_pure (List.forall_mem_append.mpr ⟨inFormals, inLocals⟩)

private theorem finds_checkStmt (result : Handle) (s : Stmt) :
    Finds (checkStmt result s) (∀ n ∈ s.nodes, n.IsMissing → n.kind = .localVar) s.nodes := by
  refine fun c => ending_get ?_
  have demands : Demands (s.constraints c.env result) s.nodes := s.demands_constraints
  refine (ending_solveAll _).imp (fun _ _ => demands.found) ?_
  rintro e _ (mismatch | fault)
  · exact blames_of_mismatch mismatch
  · exact demands.blames e fault

private theorem finds_checkFunction (f : Function) :
    Finds (checkFunction f) ((∀ b ∈ f.formals ++ f.locals, b.mark.id ≠ none) ∧
      ∀ s ∈ f.body, ∀ n ∈ s.nodes, n.IsMissing → n.kind = .localVar) f.nodes := by
  intro c
  refine (finds_enterFunction f c).bind fun result c bindings => ?_
  have body : Finds (f.body.forM (checkStmt result)) (∀ s ∈ f.body, ∀ n ∈ s.nodes,
      n.IsMissing → n.kind = .localVar) f.nodes := finds_forM fun s member =>
    (finds_checkStmt result s).mono (Function.nodes_subset_of_mem member)
  exact (body c).post fun _ _ found => ⟨bindings, found⟩

end Checker

/-! ### All parts of a program -/

private theorem Part.eq_localVar_of_kind {a : Part} (isLocal : a.kind = .localVar) :
    ∃ b, a = .localVar b := by
  cases a with
  | localVar b => exact ⟨b, rfl⟩
  | stmt s => cases s <;> cases isLocal
  | expr e => cases e <;> cases isLocal
  | program | function | formal | field => cases isLocal

private theorem Part.isStmt_kind {a : Part} : a.kind.isStmt = false ↔ ∀ s, a ≠ .stmt s := by
  cases a with
  | stmt s => cases s <;> simp [kind, Stmt.kind, NodeKind.isStmt]
  | expr e => cases e <;> simp [kind, Expr.kind, NodeKind.isStmt]
  | program | function | formal | localVar | field => simp [kind, NodeKind.isStmt]

private theorem Function.exists_binding {f : Function} {n : Node} (inside : n ∈ f.nodes)
    (isLocal : n.kind = .localVar) : ∃ b ∈ f.formals ++ f.locals, b.node .localVar = n := by
  obtain ⟨a, inParts, rfl⟩ := mem_nodes_iff.mp inside
  obtain ⟨b, rfl⟩ := Part.eq_localVar_of_kind isLocal
  refine ⟨b, ?_, rfl⟩
  rw [← f.bindings_eq, bindings, List.mem_filterMap]
  exact ⟨_, inParts, rfl⟩

private theorem Function.not_isMissing {f : Function} (own : f.mark.id ≠ none)
    (bindings : ∀ b ∈ f.formals ++ f.locals, b.mark.id ≠ none)
    (body : ∀ s ∈ f.body, ∀ n ∈ s.nodes, n.IsMissing → n.kind = .localVar) :
    ∀ n ∈ f.nodes, ¬ n.IsMissing := by
  intro n inside missing
  have inBody : n ∈ Stmt.nodesAll f.body := by
    rcases List.mem_cons.mp inside with rfl | inside
    · exact absurd missing.2 own
    rcases List.mem_append.mp inside with inFormals | inBody
    · obtain ⟨b, member, rfl⟩ := List.mem_map.mp inFormals
      exact absurd missing.2 (bindings b (List.mem_append_left _ member))
    · exact inBody
  rw [Stmt.nodesAll_eq_flatMap, List.mem_flatMap] at inBody
  obtain ⟨s, member, inStmt⟩ := inBody
  obtain ⟨b, member, rfl⟩ := exists_binding inside (body s member n inStmt missing)
  exact bindings b member missing.2

private theorem Checker.finds_checkProgram (p : Program) :
    Finds (checkProgram p) (∀ n ∈ p.nodes, ¬ n.IsMissing) p.nodes := by
  have inside {f : Function} (member : f ∈ p.functions) : f.nodes ⊆ p.nodes := fun _ inFunction =>
    List.mem_cons_of_mem _ (List.mem_flatMap.mpr ⟨f, member, inFunction⟩)
  have own : Finds (require p.mark .program) (p.mark.id ≠ none) p.nodes :=
    finds_require rfl List.mem_cons_self
  have declared : Finds (declareFunctions p) (∀ f ∈ p.functions, f.mark.id ≠ none) p.nodes :=
    finds_forM fun f member => (finds_declareFunction f).mono (inside member)
  have checked := finds_forM fun f (member : f ∈ p.functions) =>
    (finds_checkFunction f).mono (inside member)
  intro c
  refine (ending_discard (K := fun _ _ => p.mark.id ≠ none) (own c)).bind fun _ c carried =>
    (declared c).bind fun _ c named => (checked c).post fun _ _ found => ?_
  refine List.forall_mem_cons.mpr ⟨fun missing => carried missing.2, fun n member => ?_⟩
  obtain ⟨f, member, inFunction⟩ := List.mem_flatMap.mp member
  exact Function.not_isMissing (named f member) (found f member).1 (found f member).2 n inFunction

/-! ### Statements -/

private theorem Part.forall_preorder {P : Part → Prop} (down : ∀ a, P a → ∀ c ∈ a.children, P c)
    {a : Part} (holds : P a) : ∀ b ∈ a.preorder, P b := by
  induction a using preorder.induct with
  | case1 a ih =>
    intro b inside
    rw [preorder_eq, List.mem_cons, List.mem_flatMap] at inside
    rcases inside with rfl | ⟨c, below, inside⟩
    · exact holds
    · exact ih ⟨c, below⟩ (down a holds c below) b inside

private theorem Expr.isStmt_of_mem {e : Expr} {n : Node} (inside : n ∈ e.nodes) :
    n.kind.isStmt = false := by
  let P (a : Part) : Prop := (∃ e, a = .expr e) ∨ ∃ b init, a = .field b init
  have down : ∀ a, P a → ∀ c ∈ a.children, P c := by
    rintro _ (⟨e, rfl⟩ | ⟨b, init, rfl⟩)
    · cases e with
      | record m fields =>
        intro c below
        obtain ⟨⟨b, init⟩, -, rfl⟩ := List.mem_map.mp below
        exact .inr ⟨b, init, rfl⟩
      | _ => simp [P, Part.children]
    · simp [P, Part.children]
  rw [show e.nodes = (Part.expr e).preorder.map Part.node from
    (Part.map_node_preorder (.expr e)).symm, List.mem_map] at inside
  obtain ⟨a, inside, rfl⟩ := inside
  rcases Part.forall_preorder down (.inl ⟨e, rfl⟩) a inside with ⟨e', rfl⟩ | ⟨b, init, rfl⟩
  · cases e' <;> rfl
  · rfl

section StmtIds

/-- The handles to give to nodes: new ones to statements, and to all others those they have. -/
def stmtIds (ids : Node → Option Handle) (n : Node) : Id (Option Handle) :=
  pure (if n.kind.isStmt then ids n else n.id)

variable {ids : Node → Option Handle}

private theorem keepsIds_stmtIds {nodes : List Node} (needed : ∀ n ∈ nodes, n.kind.isStmt = false) :
    KeepsIds (stmtIds ids) (fun _ => pure ()) nodes := by
  intro n member
  rw [stmtIds, needed n member]
  rfl

private theorem Expr.visit_stmtIds (e : Expr) : e.visit (stmtIds ids) = pure e :=
  visit_of_keeps (keepsIds_stmtIds fun _ => isStmt_of_mem)

private theorem Binding.visitAll_stmtIds {kind : NodeKind} (needed : kind.isStmt = false)
    (bs : List Binding) : visitAll (stmtIds ids) kind bs = pure bs := by
  refine visitAll_of_keeps (keepsIds_stmtIds fun n member => ?_)
  obtain ⟨b, -, rfl⟩ := List.mem_map.mp member
  exact needed

private theorem Mark.span_visit_stmtIds (kind : NodeKind) (name : Option String) (m : Mark) :
    (m.visit (stmtIds ids) kind name).run.span = m.span := rfl

namespace Stmt

/-- Statements that demand the same and declare the same. -/
structure Equivalent (s s' : Stmt) : Prop where
  constraints : ∀ env result, s.constraints env result = s'.constraints env result
  locals : s.locals = s'.locals

private theorem constraintsAll_of_equivalent {body body' : List Stmt}
    (equivalent : List.Forall₂ Equivalent body body') (env : Env) (result : Handle) :
    constraintsAll env result body = constraintsAll env result body' := by
  induction equivalent with
  | nil => rfl
  | cons first _ ih => rw [constraintsAll, constraintsAll, first.constraints, ih]

private theorem localsAll_of_equivalent {body body' : List Stmt}
    (equivalent : List.Forall₂ Equivalent body body') : localsAll body = localsAll body' := by
  induction equivalent with
  | nil => rfl
  | cons first _ ih => rw [localsAll, localsAll, first.locals, ih]

mutual

private theorem equivalent_visit (ids : Node → Option Handle) :
    ∀ s : Stmt, Equivalent (s.visit (stmtIds ids)).run s
  | declare m names => by
    have kept : Binding.visitAll (stmtIds ids) .localVar names = pure names :=
      Binding.visitAll_stmtIds rfl names
    constructor <;> simp [visit, kept, constraints, locals]
  | block m body => by
    have inside := equivalent_visitAll ids body
    constructor
    · simpa [visit, constraints] using constraintsAll_of_equivalent inside
    · simpa [visit, locals] using localsAll_of_equivalent inside
  | loop m cond body => by
    have inside := equivalent_visit ids body
    constructor
    · simp [visit, constraints, Expr.visit_stmtIds, inside.constraints]
    · simp [visit, locals, inside.locals]
  | branch m cond yes none => by
    have inside := equivalent_visit ids yes
    constructor
    · simp [visit, constraints, Expr.visit_stmtIds, inside.constraints]
    · simp [visit, locals, inside.locals]
  | branch m cond yes (some no) => by
    have first := equivalent_visit ids yes
    have second := equivalent_visit ids no
    constructor
    · simp [visit, constraints, Expr.visit_stmtIds, first.constraints, second.constraints]
    · simp [visit, locals, first.locals, second.locals]
  | assign .. | output .. | error .. | ret .. => by
    constructor <;>
      simp [visit, constraints, locals, Expr.visit_stmtIds, Mark.span_visit_stmtIds]

private theorem equivalent_visitAll (ids : Node → Option Handle) :
    ∀ body : List Stmt, List.Forall₂ Equivalent (visitAll (stmtIds ids) body).run body
  | [] => .nil
  | s :: rest => .cons (equivalent_visit ids s) (equivalent_visitAll ids rest)

end

end Stmt

private theorem Mark.visit_stmtIds {kind : NodeKind} (needed : kind.isStmt = false)
    (name : Option String) (m : Mark) : m.visit (stmtIds ids) kind name = pure m := by
  have kept : stmtIds ids (m.node kind name) = pure m.id := by
    rw [stmtIds, show (m.node kind name).kind.isStmt = false from needed]
    rfl
  rw [visit, kept]
  rfl

private theorem Function.visit_stmtIds (f : Function) : f.visit (stmtIds ids) =
    pure { f with body := (Stmt.visitAll (stmtIds ids) f.body).run } := by
  have own : f.mark.visit (stmtIds ids) .function (some f.name) = pure f.mark :=
    Mark.visit_stmtIds rfl _ _
  have formals : Binding.visitAll (stmtIds ids) .formal f.formals = pure f.formals :=
    Binding.visitAll_stmtIds rfl _
  rw [visit, own, formals]
  rfl

namespace Checker

private theorem forM_checkStmt_of_equivalent {body body' : List Stmt}
    (equivalent : List.Forall₂ Stmt.Equivalent body body') (result : Handle) :
    body.forM (checkStmt result) = body'.forM (checkStmt result) := by
  induction equivalent with
  | nil => rfl
  | cons first _ ih => simp only [List.forM, checkStmt, first.constraints, ih]

private theorem same_visitAll (ids : Node → Option Handle) (fs : List Function) :
    (Function.visitAll (stmtIds ids) fs).run.forM declareFunction = fs.forM declareFunction ∧
      (Function.visitAll (stmtIds ids) fs).run.forM checkFunction = fs.forM checkFunction := by
  induction fs with
  | nil => exact ⟨rfl, rfl⟩
  | cons f rest ih =>
    have equivalent := Stmt.equivalent_visitAll ids f.body
    let f' : Function := { f with body := (Stmt.visitAll (stmtIds ids) f.body).run }
    have visited : (Function.visitAll (stmtIds ids) (f :: rest)).run =
        f' :: (Function.visitAll (stmtIds ids) rest).run := by
      rw [Function.visitAll, Function.visit_stmtIds]
      rfl
    have entered : enterFunction f' = enterFunction f := by
      have locals : f'.locals = f.locals := Stmt.localsAll_of_equivalent equivalent
      rw [enterFunction, enterFunction, locals]
      rfl
    have checked : checkFunction f' = checkFunction f := by
      rw [checkFunction, checkFunction, entered]
      simp only [f', forM_checkStmt_of_equivalent equivalent]
    rw [visited]
    constructor
    · rw [List.forM, List.forM, ih.1]
      rfl
    · rw [List.forM, List.forM, ih.2, checked]

end Checker

end StmtIds

/-- The program with the given handles at its statements and its own at all other nodes. -/
def Program.withStmtIds (ids : Node → Option Handle) (p : Program) : Program :=
  (p.visit (stmtIds ids)).run

private theorem Checker.checkProgram_withStmtIds (ids : Node → Option Handle) (p : Program) :
    checkProgram (p.withStmtIds ids) = checkProgram p := by
  have own : p.mark.visit (stmtIds ids) .program none = pure p.mark := Mark.visit_stmtIds rfl _ _
  have visited : p.withStmtIds ids =
      { p with functions := (Function.visitAll (stmtIds ids) p.functions).run } := by
    rw [Program.withStmtIds, Program.visit, own]
    rfl
  obtain ⟨declared, checked⟩ := same_visitAll ids p.functions
  rw [visited, checkProgram, checkProgram, declareFunctions, declareFunctions]
  dsimp only
  rw [declared, checked]

/-- Checking a program passes over no node. Where it succeeds every part of the tree but the
statements has a handle, and where it ends for want of one there is a part of that kind at that
place without; the handles of statements make no difference to it. -/
theorem checkProgram_coverage (p : Program) (table : NodeTable) :
    (∀ c, Checker.checkProgram p { nodes := table } = .ok () c →
      ∀ a ∈ p.parts, (∀ s, a ≠ .stmt s) → ∃ h, a.mark.id = some h) ∧
    (∀ kind span c, Checker.checkProgram p { nodes := table } = .error (.unassigned kind span) c →
      ∃ a ∈ p.parts, (∀ s, a ≠ .stmt s) ∧ a.kind = kind ∧ a.mark.span = span ∧
        a.mark.id = none) ∧
    ∀ ids, Checker.checkProgram (p.withStmtIds ids) { nodes := table } =
      Checker.checkProgram p { nodes := table } := by
  have ending := Checker.finds_checkProgram p { nodes := table }
  refine ⟨fun c ran a inside isPart => ?_, fun kind span c ran => ?_, fun ids => ?_⟩
  · have member : a.node ∈ p.nodes := p.map_node_parts ▸ List.mem_map_of_mem inside
    have present : a.mark.id ≠ none := fun missing =>
      ending.of_ok ran a.node member ⟨Part.isStmt_kind.mpr isPart, missing⟩
    exact Option.ne_none_iff_exists'.mp present
  · obtain ⟨n, member, missing, rfl, rfl⟩ := ending.of_error ran kind span rfl
    rw [← p.map_node_parts, List.mem_map] at member
    obtain ⟨a, inside, rfl⟩ := member
    exact ⟨a, inside, Part.isStmt_kind.mp missing.1, rfl, rfl, missing.2⟩
  · rw [Checker.checkProgram_withStmtIds]

/-- Handles that are repeated and that the table does not hold: a program that has them everywhere
but at its statement is accepted, and one with a bare local inside a loop is not. -/
theorem checkProgram_coverage_loop :
    let program (s : Stmt) : Program :=
      { mark := { id := some 9 }
        functions := [{ name := "main", mark := { id := some 5 }
                        formals := [{ name := "x", mark := { id := some 9 } }]
                        body := [s] }] }
    let accepted := program (.ret {} (.var { id := some 9 } "x"))
    let rejected := program (.loop {} (.var { id := some 9 } "x")
      (.declare {} [{ name := "y", mark := { span := { line := 4 } } }]))
    (∃ c, Checker.checkProgram accepted { nodes := {} } = .ok () c) ∧
      (∀ a ∈ accepted.parts, (∀ s, a ≠ .stmt s) → ∃ h, a.mark.id = some h) ∧
      (∃ c, Checker.checkProgram rejected { nodes := {} } =
        .error (.unassigned .localVar { line := 4 }) c) ∧
      ∃ a ∈ rejected.parts, (∀ s, a ≠ .stmt s) ∧ a.kind = .localVar ∧
        a.mark.span = { line := 4 } ∧ a.mark.id = none := by
  intro program accepted rejected
  obtain ⟨c, succeeds⟩ : ∃ c, Checker.checkProgram accepted { nodes := {} } = .ok () c := ⟨_, rfl⟩
  obtain ⟨c', fails⟩ : ∃ c, Checker.checkProgram rejected { nodes := {} } =
      .error (.unassigned .localVar { line := 4 }) c := ⟨_, rfl⟩
  exact ⟨⟨c, succeeds⟩, (checkProgram_coverage accepted {}).1 c succeeds, ⟨c', fails⟩,
    (checkProgram_coverage rejected {}).2.1 _ _ c' fails⟩

end TypeInference
