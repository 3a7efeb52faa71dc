import TypeInference.Constraint.Generate
import TypeInference.Proofs.Ground
import TypeInference.Tree.Preorder

/-!
# Typing rules

What it means for an assignment of types to type a program: a rule for each kind of node, checked
at every node of the tree. The rules are the same whatever types are, so they are stated over an
algebra of types; ground types form one, types compared up to the order of fields another.
-/

set_option autoImplicit false

namespace TypeInference

/-- What typing rules need of types: the constructors, the fields of records, and when two types
count as one. -/
structure TypeAlgebra (α : Type) where
  same : α → α → Prop
  int : α
  pointer : α → α
  function : List α → α → α
  record : List (String × α) → α
  field? : α → String → Option α

/-- Ground types, of which equal ones count as one. -/
def Ground.algebra : TypeAlgebra Ground where
  same := Eq
  int := int
  pointer := pointer
  function := function
  record := ofFields
  field? := field?

/-- The type of the first field of that name in a record. -/
def Ty.field? : Ty → String → Option Ty
  | record fields, name => fields.lookup name
  | _, _ => none

/-- Types, of which compatible ones count as one. -/
def Ty.algebra : TypeAlgebra Ty where
  same a b := a.compatible b
  int := int
  pointer := pointer
  function := function
  record := record
  field? := field?

section Rules

variable {α : Type} (A : TypeAlgebra α)

namespace Expr

mutual

/-- The types obey the rule of every node of an expression. -/
def WellTyped (env : Env) (τ : Handle → α) : Expr → Prop
  | num m _ | input m => A.same (τ m.handle) A.int
  | var m name => ∃ declared, env name = some declared ∧ A.same (τ m.handle) (τ declared)
  | binary m op lhs rhs =>
    lhs.WellTyped env τ ∧ rhs.WellTyped env τ ∧
      (if op = .eq then A.same (τ lhs.handle) (τ rhs.handle)
        else A.same (τ lhs.handle) A.int ∧ A.same (τ rhs.handle) A.int) ∧
      A.same (τ m.handle) A.int
  | call m callee args =>
    callee.WellTyped env τ ∧ WellTypedAll env τ args ∧
      A.same (τ callee.handle) (A.function (args.map fun arg => τ arg.handle) (τ m.handle))
  | alloc m init => init.WellTyped env τ ∧ A.same (τ m.handle) (A.pointer (τ init.handle))
  | addrOf m name =>
    ∃ declared, env name = some declared ∧ A.same (τ m.handle) (A.pointer (τ declared))
  | deref m pointer =>
    pointer.WellTyped env τ ∧ A.same (τ pointer.handle) (A.pointer (τ m.handle))
  | null m => ∃ target, A.same (τ m.handle) (A.pointer target)
  | record m fields =>
    (fields.map fun (b, _) => b.name).Nodup ∧ WellTypedFields env τ fields ∧
      A.same (τ m.handle) (A.record (fields.map fun (b, _) => (b.name, τ b.mark.handle)))
  | access m base field =>
    base.WellTyped env τ ∧
      ∃ type, A.field? (τ base.handle) field = some type ∧ A.same type (τ m.handle)

/-- The types obey the rule of every node of a list of expressions. -/
def WellTypedAll (env : Env) (τ : Handle → α) : List Expr → Prop
  | [] => True
  | e :: rest => e.WellTyped env τ ∧ WellTypedAll env τ rest

/-- Every field of a record literal has the type of its initialiser. -/
def WellTypedFields (env : Env) (τ : Handle → α) : List (Binding × Expr) → Prop
  | [] => True
  | (b, init) :: rest =>
    init.WellTyped env τ ∧ A.same (τ b.mark.handle) (τ init.handle) ∧ WellTypedFields env τ rest

end

end Expr

namespace Stmt

mutual

/-- The types obey the rule of every node of a statement in a function with the given result. -/
def WellTyped (env : Env) (τ : Handle → α) (result : α) : Stmt → Prop
  | declare .. => True
  | block _ body => WellTypedAll env τ result body
  | assign _ lhs rhs =>
    lhs.WellTyped A env τ ∧ rhs.WellTyped A env τ ∧ A.same (τ lhs.handle) (τ rhs.handle)
  | loop _ cond body =>
    cond.WellTyped A env τ ∧ A.same (τ cond.handle) A.int ∧ body.WellTyped env τ result
  | branch _ cond yes none =>
    cond.WellTyped A env τ ∧ A.same (τ cond.handle) A.int ∧ yes.WellTyped env τ result
  | branch _ cond yes (some no) =>
    cond.WellTyped A env τ ∧ A.same (τ cond.handle) A.int ∧ yes.WellTyped env τ result ∧
      no.WellTyped env τ result
  | output _ arg | error _ arg => arg.WellTyped A env τ ∧ A.same (τ arg.handle) A.int
  | ret _ arg => arg.WellTyped A env τ ∧ A.same (τ arg.handle) result

/-- The types obey the rule of every node of a sequence of statements. -/
def WellTypedAll (env : Env) (τ : Handle → α) (result : α) : List Stmt → Prop
  | [] => True
  | s :: rest => s.WellTyped env τ result ∧ WellTypedAll env τ result rest

end

theorem wellTypedAll_iff {env : Env} {τ : Handle → α} {result : α} {body : List Stmt} :
    WellTypedAll A env τ result body ↔ ∀ s ∈ body, s.WellTyped A env τ result := by
  induction body with
  | nil => simp [WellTypedAll]
  | cons s rest ih => rw [WellTypedAll, ih, List.forall_mem_cons]

end Stmt

/-- What names mean in a function: its formals and locals first, then the functions of the
program. -/
def Program.env (p : Program) (f : Function) : Env := fun name =>
  match (f.formals ++ f.locals).find? (·.name == name) with
  | some b => b.mark.id
  | none => (p.function? name).bind (·.mark.id)

/-- A function has a type from the types of its formals to a result, which is the type of whatever
its body returns. -/
def Function.WellTyped (env : Env) (τ : Handle → α) (f : Function) : Prop :=
  ∃ result, A.same (τ f.mark.handle) (A.function (f.formals.map fun b => τ b.mark.handle) result) ∧
    Stmt.WellTypedAll A env τ result f.body

/-- The types obey the rule of every node of a program. -/
def Program.WellTyped (τ : Handle → α) (p : Program) : Prop :=
  ∀ f ∈ p.functions, f.WellTyped A (p.env f) τ

end Rules

/-- The handle of a numbered node. -/
def Node.handle (n : Node) : Handle := n.id.getD 0

/-- All typed nodes among the given ones have their handles in `S`. -/
def TypedIn (S : Handle → Prop) (nodes : List Node) : Prop :=
  ∀ n ∈ nodes, n.kind.isTyped → S n.handle

section TypedIn

variable {S : Handle → Prop}

theorem typedIn_cons {n : Node} {rest : List Node} :
    TypedIn S (n :: rest) ↔ (n.kind.isTyped → S n.handle) ∧ TypedIn S rest :=
  List.forall_mem_cons

theorem typedIn_append {nodes rest : List Node} :
    TypedIn S (nodes ++ rest) ↔ TypedIn S nodes ∧ TypedIn S rest :=
  List.forall_mem_append

namespace Expr

private theorem isTyped_kind (e : Expr) : e.kind.isTyped := by cases e <;> rfl

private theorem node_mem_nodes (e : Expr) : e.node ∈ e.nodes := by cases e <;> simp [nodes]

theorem handle_in {e : Expr} (own : TypedIn S e.nodes) : S e.handle :=
  own e.node e.node_mem_nodes e.isTyped_kind

theorem handles_in : ∀ {es : List Expr}, TypedIn S (nodesAll es) → ∀ h ∈ es.map handle, S h
  | [], _ => by simp
  | e :: rest, own => by
    obtain ⟨first, others⟩ := typedIn_append.mp own
    rw [List.map_cons, List.forall_mem_cons]
    exact ⟨handle_in first, handles_in others⟩

theorem fieldHandles_in : ∀ {fields : List (Binding × Expr)}, TypedIn S (nodesFields fields) →
    ∀ field ∈ fieldHandles fields, S field.2
  | [], _ => by simp [fieldHandles]
  | (b, init) :: rest, own => by
    obtain ⟨first, others⟩ := typedIn_cons.mp own
    rw [fieldHandles, List.map_cons, List.forall_mem_cons]
    exact ⟨first rfl, fieldHandles_in (typedIn_append.mp others).2⟩

end Expr

end TypedIn

/-- Types of one algebra stand for types of another: whatever a rule says of the first holds of the
second. -/
structure TypeAlgebra.Simulates {α β : Type} (A : TypeAlgebra α) (B : TypeAlgebra β)
    (R : α → β → Prop) : Prop where
  same : ∀ {a a' : α} {b b' : β}, R a b → R a' b' → A.same a a' → B.same b b'
  int : R A.int B.int
  pointer : ∀ {a : α} {b : β}, R a b → R (A.pointer a) (B.pointer b)
  function : ∀ {handles : List Handle} {τ : Handle → α} {τ' : Handle → β} {a : α} {b : β},
    (∀ h ∈ handles, R (τ h) (τ' h)) → R a b →
      R (A.function (handles.map τ) a) (B.function (handles.map τ') b)
  record : ∀ {fields : List (String × Handle)} {τ : Handle → α} {τ' : Handle → β},
    (fields.map Prod.fst).Nodup → (∀ field ∈ fields, R (τ field.2) (τ' field.2)) →
      R (A.record (fields.map fun (name, h) => (name, τ h)))
        (B.record (fields.map fun (name, h) => (name, τ' h)))
  field? : ∀ {a t : α} {b : β} {name : String}, R a b → A.field? a name = some t →
    ∃ t', B.field? b name = some t' ∧ R t t'
  target : ∀ {a t : α} {b : β}, R a b → A.same a (A.pointer t) → ∃ t', R t t'
  result : ∀ {a t : α} {b : β} {params : List α}, R a b → A.same a (A.function params t) →
    ∃ t', R t t'

/-- Types of one algebra, given to the handles in `S` and to all names, stand for types of
another. -/
structure Related {α β : Type} (R : α → β → Prop) (S : Handle → Prop) (env : Env)
    (τ : Handle → α) (τ' : Handle → β) : Prop where
  handles : ∀ h, S h → R (τ h) (τ' h)
  names : ∀ name h, env name = some h → S h

section Simulation

variable {α β : Type} {A : TypeAlgebra α} {B : TypeAlgebra β} {R : α → β → Prop}
  {S : Handle → Prop} {env : Env} {τ : Handle → α} {τ' : Handle → β}

namespace Expr

private theorem related_handle (related : Related R S env τ τ') {e : Expr}
    (own : TypedIn S e.nodes) :
    R (τ e.handle) (τ' e.handle) := related.handles _ (handle_in own)

mutual

private theorem WellTyped.simulate (sim : A.Simulates B R) (related : Related R S env τ τ') :
    ∀ {e : Expr}, TypedIn S e.nodes → e.WellTyped A env τ → e.WellTyped B env τ'
  | num m _, own, typed | input m, own, typed =>
    sim.same (related_handle related own) sim.int typed
  | var m name, own, typed => by
    obtain ⟨declared, found, same⟩ := typed
    have image := related.handles declared (related.names name declared found)
    exact ⟨declared, found, sim.same (related_handle related own) image same⟩
  | binary m op lhs rhs, own, typed => by
    obtain ⟨left, right, operands, whole⟩ := typed
    obtain ⟨ownLeft, ownRight⟩ := typedIn_append.mp (typedIn_cons.mp own).2
    have imageLeft := related_handle related ownLeft
    have imageRight := related_handle related ownRight
    refine ⟨left.simulate sim related ownLeft, right.simulate sim related ownRight, ?_,
      sim.same (related_handle related own) sim.int whole⟩
    by_cases polymorphic : op = .eq
    · rw [if_pos polymorphic] at operands ⊢
      exact sim.same imageLeft imageRight operands
    · rw [if_neg polymorphic] at operands ⊢
      exact ⟨sim.same imageLeft sim.int operands.1, sim.same imageRight sim.int operands.2⟩
  | call m callee args, own, typed => by
    obtain ⟨function, arguments, same⟩ := typed
    obtain ⟨ownCallee, ownArgs⟩ := typedIn_append.mp (typedIn_cons.mp own).2
    refine ⟨function.simulate sim related ownCallee, arguments.simulate sim related ownArgs, ?_⟩
    have image := sim.function (fun h member => related.handles h (handles_in ownArgs h member))
      (related_handle related own)
    rw [List.map_map, List.map_map] at image
    exact sim.same (related_handle related ownCallee) image same
  | alloc m init, own, typed => by
    have ownInit := (typedIn_cons.mp own).2
    exact ⟨typed.1.simulate sim related ownInit, sim.same (related_handle related own)
      (sim.pointer (related_handle related ownInit)) typed.2⟩
  | addrOf m name, own, typed => by
    obtain ⟨declared, found, same⟩ := typed
    have image := related.handles declared (related.names name declared found)
    exact ⟨declared, found, sim.same (related_handle related own) (sim.pointer image) same⟩
  | deref m pointer, own, typed => by
    have ownPointer := (typedIn_cons.mp own).2
    exact ⟨typed.1.simulate sim related ownPointer, sim.same (related_handle related ownPointer)
      (sim.pointer (related_handle related own)) typed.2⟩
  | null m, own, typed => by
    obtain ⟨target, same⟩ := typed
    obtain ⟨target', image⟩ := sim.target (related_handle related own) same
    exact ⟨target', sim.same (related_handle related own) (sim.pointer image) same⟩
  | record m fields, own, typed => by
    obtain ⟨distinct, initialised, same⟩ := typed
    have ownFields := (typedIn_cons.mp own).2
    refine ⟨distinct, initialised.simulate sim related ownFields, ?_⟩
    have distinct' : ((fieldHandles fields).map Prod.fst).Nodup := by
      rw [fieldHandles, List.map_map]
      exact distinct
    have image := sim.record distinct' fun field member =>
      related.handles field.2 (fieldHandles_in ownFields field member)
    rw [fieldHandles, List.map_map, List.map_map] at image
    exact sim.same (related_handle related own) image same
  | access m base field, own, typed => by
    obtain ⟨record, type, found, same⟩ := typed
    have ownBase := (typedIn_cons.mp own).2
    obtain ⟨type', found', image⟩ := sim.field? (related_handle related ownBase) found
    exact ⟨record.simulate sim related ownBase, type', found',
      sim.same image (related_handle related own) same⟩

private theorem WellTypedAll.simulate (sim : A.Simulates B R) (related : Related R S env τ τ') :
    ∀ {es : List Expr}, TypedIn S (nodesAll es) → WellTypedAll A env τ es →
      WellTypedAll B env τ' es
  | [], _, _ => trivial
  | e :: rest, own, typed => by
    obtain ⟨first, others⟩ := typedIn_append.mp own
    exact ⟨typed.1.simulate sim related first, typed.2.simulate sim related others⟩

private theorem WellTypedFields.simulate (sim : A.Simulates B R) (related : Related R S env τ τ') :
    ∀ {fields : List (Binding × Expr)}, TypedIn S (nodesFields fields) →
      WellTypedFields A env τ fields → WellTypedFields B env τ' fields
  | [], _, _ => trivial
  | (b, init) :: rest, own, typed => by
    obtain ⟨initial, same, others⟩ := typed
    obtain ⟨ownField, own'⟩ := typedIn_cons.mp own
    obtain ⟨ownInit, ownRest⟩ := typedIn_append.mp own'
    exact ⟨initial.simulate sim related ownInit,
      sim.same (related.handles _ (ownField rfl)) (related_handle related ownInit) same,
      others.simulate sim related ownRest⟩

end

end Expr

namespace Stmt

variable {result : α} {result' : β}

mutual

private theorem WellTyped.simulate (sim : A.Simulates B R) (related : Related R S env τ τ')
    (image : R result result') :
    ∀ {s : Stmt}, TypedIn S s.nodes → s.WellTyped A env τ result → s.WellTyped B env τ' result'
  | declare .., _, _ => trivial
  | block _ body, own, typed =>
    WellTypedAll.simulate sim related image (typedIn_cons.mp own).2 typed
  | assign _ lhs rhs, own, typed => by
    obtain ⟨left, right, same⟩ := typed
    obtain ⟨ownLeft, ownRight⟩ := typedIn_append.mp (typedIn_cons.mp own).2
    exact ⟨left.simulate sim related ownLeft, right.simulate sim related ownRight,
      sim.same (Expr.related_handle related ownLeft) (Expr.related_handle related ownRight) same⟩
  | loop _ cond body, own, typed => by
    obtain ⟨condition, same, inner⟩ := typed
    obtain ⟨ownCond, ownBody⟩ := typedIn_append.mp (typedIn_cons.mp own).2
    exact ⟨condition.simulate sim related ownCond,
      sim.same (Expr.related_handle related ownCond) sim.int same,
      inner.simulate sim related image ownBody⟩
  | branch _ cond yes none, own, typed => by
    obtain ⟨condition, same, inner⟩ := typed
    obtain ⟨ownCond, ownYes⟩ := typedIn_append.mp (typedIn_cons.mp own).2
    exact ⟨condition.simulate sim related ownCond,
      sim.same (Expr.related_handle related ownCond) sim.int same,
      inner.simulate sim related image ownYes⟩
  | branch _ cond yes (some no), own, typed => by
    obtain ⟨condition, same, first, second⟩ := typed
    obtain ⟨ownFront, ownNo⟩ := typedIn_append.mp (typedIn_cons.mp own).2
    obtain ⟨ownCond, ownYes⟩ := typedIn_append.mp ownFront
    exact ⟨condition.simulate sim related ownCond,
      sim.same (Expr.related_handle related ownCond) sim.int same,
      first.simulate sim related image ownYes, second.simulate sim related image ownNo⟩
  | output _ arg, own, typed | error _ arg, own, typed => by
    have ownArg := (typedIn_cons.mp own).2
    exact ⟨typed.1.simulate sim related ownArg,
      sim.same (Expr.related_handle related ownArg) sim.int typed.2⟩
  | ret _ arg, own, typed => by
    have ownArg := (typedIn_cons.mp own).2
    exact ⟨typed.1.simulate sim related ownArg,
      sim.same (Expr.related_handle related ownArg) image typed.2⟩

private theorem WellTypedAll.simulate (sim : A.Simulates B R) (related : Related R S env τ τ')
    (image : R result result') :
    ∀ {body : List Stmt}, TypedIn S (nodesAll body) → WellTypedAll A env τ result body →
      WellTypedAll B env τ' result' body
  | [], _, _ => trivial
  | s :: rest, own, typed => by
    obtain ⟨first, others⟩ := typedIn_append.mp own
    exact ⟨typed.1.simulate sim related image first,
      WellTypedAll.simulate sim related image others typed.2⟩

end

end Stmt

/-- A simulation carries the rules of a whole function over. -/
theorem Function.WellTyped.simulate (sim : A.Simulates B R) (related : Related R S env τ τ')
    {f : Function} (own : TypedIn S f.nodes) (typed : f.WellTyped A env τ) :
    f.WellTyped B env τ' := by
  obtain ⟨result, same, body⟩ := typed
  obtain ⟨ownName, own'⟩ := typedIn_cons.mp own
  obtain ⟨ownFormals, ownBody⟩ := typedIn_append.mp own'
  have self : R (τ f.mark.handle) (τ' f.mark.handle) := related.handles _ (ownName rfl)
  have formals : ∀ h ∈ f.formals.map (·.mark.handle), R (τ h) (τ' h) := by
    intro h member
    obtain ⟨b, inFormals, rfl⟩ := List.mem_map.mp member
    exact related.handles _ (ownFormals _ (List.mem_map_of_mem inFormals) rfl)
  obtain ⟨result', image⟩ := sim.result self same
  have function := sim.function formals image
  rw [List.map_map, List.map_map] at function
  exact ⟨result', sim.same self function same, body.simulate sim related image ownBody⟩

end Simulation

/-- Equal types simulate each other, so the rules read an assignment at typed nodes and names
only. -/
theorem Ground.simulates_self : Ground.algebra.Simulates Ground.algebra Eq where
  same equal equal' same := equal ▸ equal' ▸ same
  int := rfl
  pointer equal := congrArg _ equal
  function params result := by
    rw [List.map_congr_left params, result]
  record _ fields := congrArg ofFields (List.map_congr_left fun (name, h) member =>
    congrArg (Prod.mk name) (fields (name, h) member))
  field? equal found := ⟨_, equal ▸ found, rfl⟩
  target _ _ := ⟨_, rfl⟩
  result _ _ := ⟨_, rfl⟩

end TypeInference
