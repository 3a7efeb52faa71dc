import TypeInference.Proofs.Numbering

/-!
# What constraints mean

A constraint holds under some assignments of ground types. The constraints of a numbered tree hold
together exactly when the assignment obeys the typing rules, they name typed nodes only, and a
record is bound only after its field names have been found to be distinct.
-/

set_option autoImplicit false

namespace TypeInference

/-- The record has the field, with the type of the node. -/
def Access.Holds (σ : Assignment) (a : Access) : Prop :=
  (σ a.record).field? a.field = some (σ a.node)

theorem Access.holds_iff {σ : Assignment} {a : Access} {t : Term}
    (known : σ a.record = t.ground σ) :
    a.Holds σ ↔ (t.field? a.field).map σ = some (σ a.node) := by
  rw [Holds, known, Term.field?_ground]

namespace Constraint

/-- The types meet a constraint. -/
def Holds (σ : Assignment) : Constraint → Prop
  | bind node term _ => σ node = term.ground σ
  | unify left right _ => σ left = σ right
  | call callee args result _ => σ callee = .function (args.map σ) (σ result)
  | deref pointer target _ => σ pointer = .pointer (σ target)
  | null node _ => ∃ target, σ node = .pointer target
  | access a => a.Holds σ
  | repeatedField .. => False
  | reject _ => False

/-- All handles that a constraint names are in `S`. -/
def Over (S : Handle → Prop) : Constraint → Prop
  | bind node term _ => S node ∧ ∀ h ∈ term.children, S h
  | unify left right _ => S left ∧ S right
  | call callee args result _ => S callee ∧ (∀ h ∈ args, S h) ∧ S result
  | deref pointer target _ => S pointer ∧ S target
  | null node _ => S node
  | access a => S a.node ∧ S a.record
  | repeatedField .. => True
  | reject _ => True

/-- A term that is to be bound names no field twice. -/
def DistinctNames : Constraint → Prop
  | bind _ term _ => term.DistinctNames
  | _ => True

/-- No types meet the constraint. -/
def Impossible : Constraint → Prop
  | repeatedField .. | reject _ => True
  | _ => False

/-- The constraint is about types, and not a fault of the tree. -/
def Faultless : Constraint → Prop
  | reject _ => False
  | _ => True

theorem Impossible.not_holds {con : Constraint} (impossible : con.Impossible) (σ : Assignment) :
    ¬ con.Holds σ := by
  cases con with
  | repeatedField record field name span => exact id
  | reject error => exact id
  | bind node term span => exact impossible.elim
  | unify left right span => exact impossible.elim
  | call callee args result span => exact impossible.elim
  | deref pointer target span => exact impossible.elim
  | null node span => exact impossible.elim
  | access a => exact impossible.elim

variable {S S' : Handle → Prop} {con : Constraint}

theorem Over.mono (covered : con.Over S) (weaker : ∀ h, S h → S' h) : con.Over S' := by
  cases con with
  | bind node term span => exact ⟨weaker _ covered.1, fun h member => weaker h (covered.2 h member)⟩
  | unify left right span => exact ⟨weaker _ covered.1, weaker _ covered.2⟩
  | call callee args result span =>
    exact ⟨weaker _ covered.1, fun h member => weaker h (covered.2.1 h member),
      weaker _ covered.2.2⟩
  | deref pointer target span => exact ⟨weaker _ covered.1, weaker _ covered.2⟩
  | null node span => exact weaker _ covered
  | access a => exact ⟨weaker _ covered.1, weaker _ covered.2⟩
  | repeatedField record field name span => trivial
  | reject error => trivial

/-- A constraint reads types at the handles it names only. -/
theorem Over.holds_congr {σ σ' : Assignment} (covered : con.Over S) (agree : ∀ h, S h → σ h = σ' h)
    (holds : con.Holds σ) : con.Holds σ' := by
  cases con with
  | bind node term span =>
    have inside : term.ground σ = term.ground σ' :=
      Term.ground_congr fun h member => agree h (covered.2 h member)
    rw [Holds, ← agree node covered.1, ← inside]
    exact holds
  | unify left right span =>
    rw [Holds, ← agree left covered.1, ← agree right covered.2]
    exact holds
  | call callee args result span =>
    have args_eq : args.map σ = args.map σ' :=
      List.map_congr_left fun h member => agree h (covered.2.1 h member)
    rw [Holds, ← agree callee covered.1, ← args_eq, ← agree result covered.2.2]
    exact holds
  | deref pointer target span =>
    rw [Holds, ← agree pointer covered.1, ← agree target covered.2]
    exact holds
  | null node span =>
    rw [Holds, ← agree node covered]
    exact holds
  | access a =>
    rw [Holds, Access.Holds, ← agree a.record covered.2, ← agree a.node covered.1]
    exact holds
  | repeatedField record field name span => exact holds
  | reject error => exact holds

/-- The types meet all constraints of a list. -/
def HoldAll (σ : Assignment) (cs : List Constraint) : Prop := ∀ con ∈ cs, con.Holds σ

theorem holdAll_nil (σ : Assignment) : HoldAll σ [] := fun _ member => by cases member

theorem holdAll_cons {σ : Assignment} {con : Constraint} {rest : List Constraint} :
    HoldAll σ (con :: rest) ↔ con.Holds σ ∧ HoldAll σ rest := List.forall_mem_cons

private theorem holdAll_append {σ : Assignment} {cs rest : List Constraint} :
    HoldAll σ (cs ++ rest) ↔ HoldAll σ cs ∧ HoldAll σ rest := List.forall_mem_append

private theorem holdAll_single {σ : Assignment} {con : Constraint} :
    HoldAll σ [con] ↔ con.Holds σ :=
  List.forall_mem_singleton

/-- Up to the first constraint that nothing meets, terms name no field twice. -/
def Orderly : List Constraint → Prop
  | [] => True
  | con :: rest => con.DistinctNames ∧ (con.Impossible ∨ Orderly rest)

private theorem orderly_append {cs rest : List Constraint} (first : Orderly cs)
    (second : Orderly rest ∨ ∃ con ∈ cs, con.Impossible) : Orderly (cs ++ rest) := by
  induction cs with
  | nil => exact second.resolve_right fun ⟨_, member, _⟩ => by cases member
  | cons con cs ih =>
    obtain ⟨distinct, impossible | others⟩ := first
    · exact ⟨distinct, .inl impossible⟩
    · refine ⟨distinct, ?_⟩
      rcases second with orderly | ⟨bad, member, impossible⟩
      · exact .inr (ih others (.inl orderly))
      · rcases List.mem_cons.mp member with rfl | member
        · exact .inl impossible
        · exact .inr (ih others (.inr ⟨bad, member, impossible⟩))

private theorem orderly_single {con : Constraint} (distinct : con.DistinctNames) : Orderly [con] :=
  ⟨distinct, .inr trivial⟩

end Constraint

section Generate

open Constraint

variable {table : NodeTable} {env : Env} {σ : Assignment}

/-- The constraints of a numbered node. -/
theorem Numbered.constrain {m : Mark} {n : Node} {rest : List Node}
    (numbered : Numbered table (n :: rest)) (carried : n.id = m.id) (kind : NodeKind)
    (constraints : Handle → List Constraint) :
    m.constrain kind constraints = constraints m.handle := by
  obtain ⟨h, found, -⟩ := (numbered_cons.mp numbered).1
  rw [carried] at found
  rw [Mark.constrain, Mark.handle, found]
  rfl

private theorem holdAll_constrain {name : String} {node : Handle} {span : Span}
    {constraints : Handle → List Constraint} :
    HoldAll σ (env.constrain name node span constraints) ↔
      ∃ declared, env name = some declared ∧ HoldAll σ (constraints declared) := by
  rw [Env.constrain]
  cases env name with
  | none => simp [holdAll_single, Holds]
  | some declared => simp

namespace Expr

mutual

/-- The constraints of a numbered expression hold exactly when it is well typed. -/
theorem holdAll_constraints : ∀ {e : Expr}, Numbered table e.nodes →
    (HoldAll σ (e.constraints env) ↔ e.WellTyped Ground.algebra env σ)
  | num m _, own | input m, own => by
    rw [constraints, own.constrain (m := m) rfl, holdAll_single]
    rfl
  | var m name, own => by
    rw [constraints, own.constrain (m := m) rfl, holdAll_constrain]
    simp only [holdAll_single]
    rfl
  | binary m op lhs rhs, own => by
    obtain ⟨ownLeft, ownRight⟩ := numbered_append.mp (numbered_cons.mp own).2
    have operands : HoldAll σ (if op.isPolymorphic then [.unify lhs.handle rhs.handle m.span]
        else [.bind lhs.handle .int lhs.span, .bind rhs.handle .int rhs.span]) ↔
        if op = .eq then σ lhs.handle = σ rhs.handle
          else σ lhs.handle = .int ∧ σ rhs.handle = .int := by
      cases op <;> simp [BinOp.isPolymorphic, HoldAll, Holds, Term.ground]
    rw [constraints, own.constrain (m := m) rfl, holdAll_append, holdAll_append, holdAll_append,
      holdAll_constraints ownLeft, holdAll_constraints ownRight, operands, holdAll_single,
      and_assoc, and_assoc]
    rfl
  | call m callee args, own => by
    obtain ⟨ownCallee, ownArgs⟩ := numbered_append.mp (numbered_cons.mp own).2
    rw [constraints, own.constrain (m := m) rfl, holdAll_append, holdAll_append,
      holdAll_constraints ownCallee, holdAll_constraintsAll ownArgs, holdAll_single, Holds,
      List.map_map, and_assoc]
    rfl
  | alloc m init, own => by
    rw [constraints, own.constrain (m := m) rfl, holdAll_append,
      holdAll_constraints (numbered_cons.mp own).2, holdAll_single]
    rfl
  | addrOf m name, own => by
    rw [constraints, own.constrain (m := m) rfl, holdAll_constrain]
    simp only [holdAll_single]
    rfl
  | deref m pointer, own => by
    rw [constraints, own.constrain (m := m) rfl, holdAll_append,
      holdAll_constraints (numbered_cons.mp own).2, holdAll_single]
    rfl
  | null m, own => by
    rw [constraints, own.constrain (m := m) rfl, holdAll_single]
    rfl
  | record m fields, own => by
    rw [constraints, own.constrain (m := m) rfl, holdAll_append,
      holdAll_constraintsFields (numbered_cons.mp own).2, holdAll_single, Holds, Term.ground,
      fieldHandles, List.map_map]
    simp only [List.not_mem_nil, not_false_eq_true, implies_true, true_and, and_assoc]
    rfl
  | access m base field, own => by
    rw [constraints, own.constrain (m := m) rfl, holdAll_append,
      holdAll_constraints (numbered_cons.mp own).2, holdAll_single, Holds, Access.Holds, WellTyped]
    simp only [Ground.algebra, exists_eq_right]

private theorem holdAll_constraintsAll : ∀ {es : List Expr}, Numbered table (nodesAll es) →
    (HoldAll σ (constraintsAll env es) ↔ WellTypedAll Ground.algebra env σ es)
  | [], _ => ⟨fun _ => trivial, fun _ => holdAll_nil σ⟩
  | e :: rest, own => by
    obtain ⟨first, others⟩ := numbered_append.mp own
    rw [constraintsAll, holdAll_append, holdAll_constraints first, holdAll_constraintsAll others]
    rfl

private theorem holdAll_constraintsFields : ∀ {fields : List (Binding × Expr)} {owner : Handle}
    {seen : List String}, Numbered table (nodesFields fields) →
    (HoldAll σ (constraintsFields env owner seen fields) ↔
      (∀ field ∈ fields, field.1.name ∉ seen) ∧ (fields.map fun (b, _) => b.name).Nodup ∧
        WellTypedFields Ground.algebra env σ fields)
  | [], _, _, _ => by
    simp [constraintsFields, holdAll_nil, WellTypedFields]
  | (b, init) :: rest, owner, seen, own => by
    obtain ⟨ownInit, ownRest⟩ := numbered_append.mp (numbered_cons.mp own).2
    rw [constraintsFields, own.constrain (m := b.mark) rfl]
    by_cases repeated : b.name ∈ seen
    · simp [repeated, holdAll_single, Holds]
    · rw [if_neg repeated, holdAll_append, holdAll_append, holdAll_constraints ownInit,
        holdAll_constraintsFields ownRest, holdAll_single, Holds, List.forall_mem_cons,
        List.map_cons, List.nodup_cons, WellTypedFields]
      simp only [List.mem_cons, not_or, List.mem_map, not_exists, not_and, Ground.algebra]
      grind

end

end Expr

namespace Stmt

mutual

/-- The constraints of a numbered statement hold exactly when it is well typed with the type of
the return slot for its result. -/
theorem holdAll_constraints {result : Handle} : ∀ {s : Stmt}, Numbered table s.nodes →
    (HoldAll σ (s.constraints env result) ↔ s.WellTyped Ground.algebra env σ (σ result))
  | declare .., _ => ⟨fun _ => trivial, fun _ => holdAll_nil σ⟩
  | block _ body, own => holdAll_constraintsAll (numbered_cons.mp own).2
  | assign _ lhs rhs, own => by
    obtain ⟨ownLeft, ownRight⟩ := numbered_append.mp (numbered_cons.mp own).2
    rw [constraints, holdAll_append, holdAll_append, Expr.holdAll_constraints ownLeft,
      Expr.holdAll_constraints ownRight, holdAll_single, and_assoc]
    rfl
  | loop _ cond body, own => by
    obtain ⟨ownCond, ownBody⟩ := numbered_append.mp (numbered_cons.mp own).2
    rw [constraints, holdAll_append, holdAll_append, Expr.holdAll_constraints ownCond,
      holdAll_constraints ownBody, holdAll_single, and_assoc]
    rfl
  | branch _ cond yes none, own => by
    obtain ⟨ownCond, ownYes⟩ := numbered_append.mp (numbered_cons.mp own).2
    rw [constraints, holdAll_append, holdAll_append, Expr.holdAll_constraints ownCond,
      holdAll_constraints ownYes, holdAll_single, and_assoc]
    rfl
  | branch _ cond yes (some no), own => by
    obtain ⟨ownFront, ownNo⟩ := numbered_append.mp (numbered_cons.mp own).2
    obtain ⟨ownCond, ownYes⟩ := numbered_append.mp ownFront
    rw [constraints, holdAll_append, holdAll_append, holdAll_append,
      Expr.holdAll_constraints ownCond, holdAll_constraints ownYes, holdAll_constraints ownNo,
      holdAll_single, and_assoc, and_assoc]
    rfl
  | output _ arg, own | error _ arg, own | ret _ arg, own => by
    rw [constraints, holdAll_append, Expr.holdAll_constraints (numbered_cons.mp own).2,
      holdAll_single]
    rfl

private theorem holdAll_constraintsAll {result : Handle} : ∀ {body : List Stmt},
    Numbered table (nodesAll body) →
    (HoldAll σ (constraintsAll env result body) ↔
      WellTypedAll Ground.algebra env σ (σ result) body)
  | [], _ => ⟨fun _ => trivial, fun _ => holdAll_nil σ⟩
  | s :: rest, own => by
    obtain ⟨first, others⟩ := numbered_append.mp own
    rw [constraintsAll, holdAll_append, holdAll_constraints first, holdAll_constraintsAll others]
    rfl

end

end Stmt

private theorem Mark.forall_constrain {P : Constraint → Prop} {m : Mark} {kind : NodeKind}
    {constraints : Handle → List Constraint} (reject : ∀ error, P (.reject error))
    (own : ∀ con ∈ constraints m.handle, P con) : ∀ con ∈ m.constrain kind constraints, P con := by
  rw [Mark.constrain]
  rw [Mark.handle] at own
  cases carried : m.id with
  | none => exact List.forall_mem_singleton.mpr (reject _)
  | some id => rwa [carried] at own

private theorem Env.forall_constrain {P : Constraint → Prop} {name : String} {node : Handle}
    {span : Span} {constraints : Handle → List Constraint} (reject : ∀ error, P (.reject error))
    (own : ∀ declared, env name = some declared → ∀ con ∈ constraints declared, P con) :
    ∀ con ∈ env.constrain name node span constraints, P con := by
  rw [Env.constrain]
  cases found : env name with
  | none => exact List.forall_mem_singleton.mpr (reject _)
  | some declared => exact own declared found

private theorem Mark.orderly_constrain {m : Mark} {kind : NodeKind}
    {constraints : Handle → List Constraint} (own : Orderly (constraints m.handle)) :
    Orderly (m.constrain kind constraints) := by
  rw [Mark.constrain]
  rw [Mark.handle] at own
  cases carried : m.id with
  | none => exact orderly_single trivial
  | some id => rwa [carried] at own

private theorem Env.orderly_constrain {name : String} {node : Handle} {span : Span}
    {constraints : Handle → List Constraint} (own : ∀ declared, Orderly (constraints declared)) :
    Orderly (env.constrain name node span constraints) := by
  rw [Env.constrain]
  cases env name with
  | none => exact orderly_single trivial
  | some declared => exact own declared

namespace Expr

variable {S : Handle → Prop}

mutual

/-- The constraints of an expression name its own typed nodes and those that names mean. -/
theorem over_constraints (names : ∀ name h, env name = some h → S h) :
    ∀ {e : Expr}, TypedIn S e.nodes → ∀ con ∈ e.constraints env, con.Over S
  | num m _, own | input m, own => by
    refine Mark.forall_constrain (fun _ => trivial) (List.forall_mem_singleton.mpr ?_)
    exact ⟨handle_in own, fun _ member => by cases member⟩
  | var m name, own => by
    refine Mark.forall_constrain (fun _ => trivial) (Env.forall_constrain (fun _ => trivial) ?_)
    intro declared found
    exact List.forall_mem_singleton.mpr ⟨handle_in own, names name declared found⟩
  | binary m op lhs rhs, own => by
    obtain ⟨ownLeft, ownRight⟩ := typedIn_append.mp (typedIn_cons.mp own).2
    have int : ∀ {h : Handle} {span : Span}, S h → (Constraint.bind h .int span).Over S :=
      fun inS => ⟨inS, fun _ member => by cases member⟩
    refine Mark.forall_constrain (fun _ => trivial) ?_
    simp only [List.forall_mem_append]
    refine ⟨⟨⟨over_constraints names ownLeft, over_constraints names ownRight⟩, ?_⟩,
      List.forall_mem_singleton.mpr (int (handle_in own))⟩
    split
    · exact List.forall_mem_singleton.mpr ⟨handle_in ownLeft, handle_in ownRight⟩
    · exact List.forall_mem_cons.mpr ⟨int (handle_in ownLeft),
        List.forall_mem_singleton.mpr (int (handle_in ownRight))⟩
  | call m callee args, own => by
    obtain ⟨ownCallee, ownArgs⟩ := typedIn_append.mp (typedIn_cons.mp own).2
    refine Mark.forall_constrain (fun _ => trivial) ?_
    simp only [List.forall_mem_append]
    exact ⟨⟨over_constraints names ownCallee, overAll_constraints names ownArgs⟩,
      List.forall_mem_singleton.mpr ⟨handle_in ownCallee, handles_in ownArgs, handle_in own⟩⟩
  | alloc m init, own => by
    have ownInit := (typedIn_cons.mp own).2
    refine Mark.forall_constrain (fun _ => trivial) (List.forall_mem_append.mpr
      ⟨over_constraints names ownInit, List.forall_mem_singleton.mpr ⟨handle_in own, ?_⟩⟩)
    exact List.forall_mem_singleton.mpr (handle_in ownInit)
  | addrOf m name, own => by
    refine Mark.forall_constrain (fun _ => trivial) (Env.forall_constrain (fun _ => trivial) ?_)
    intro declared found
    exact List.forall_mem_singleton.mpr
      ⟨handle_in own, List.forall_mem_singleton.mpr (names name declared found)⟩
  | deref m pointer, own => by
    have ownPointer := (typedIn_cons.mp own).2
    exact Mark.forall_constrain (fun _ => trivial) (List.forall_mem_append.mpr
      ⟨over_constraints names ownPointer,
        List.forall_mem_singleton.mpr ⟨handle_in ownPointer, handle_in own⟩⟩)
  | null m, own =>
    Mark.forall_constrain (fun _ => trivial) (List.forall_mem_singleton.mpr (handle_in own))
  | record m fields, own => by
    have ownFields := (typedIn_cons.mp own).2
    refine Mark.forall_constrain (fun _ => trivial) (List.forall_mem_append.mpr
      ⟨overFields_constraints names ownFields,
        List.forall_mem_singleton.mpr ⟨handle_in own, ?_⟩⟩)
    intro h member
    obtain ⟨field, inFields, rfl⟩ := List.mem_map.mp member
    exact fieldHandles_in ownFields field inFields
  | access m base field, own => by
    have ownBase := (typedIn_cons.mp own).2
    exact Mark.forall_constrain (fun _ => trivial) (List.forall_mem_append.mpr
      ⟨over_constraints names ownBase,
        List.forall_mem_singleton.mpr ⟨handle_in own, handle_in ownBase⟩⟩)

private theorem overAll_constraints (names : ∀ name h, env name = some h → S h) :
    ∀ {es : List Expr}, TypedIn S (nodesAll es) → ∀ con ∈ constraintsAll env es, con.Over S
  | [], _ => fun _ member => by cases member
  | e :: rest, own => by
    obtain ⟨first, others⟩ := typedIn_append.mp own
    exact List.forall_mem_append.mpr
      ⟨over_constraints names first, overAll_constraints names others⟩

private theorem overFields_constraints (names : ∀ name h, env name = some h → S h) :
    ∀ {fields : List (Binding × Expr)} {owner : Handle} {seen : List String},
      TypedIn S (nodesFields fields) →
      ∀ con ∈ constraintsFields env owner seen fields, con.Over S
  | [], _, _, _ => fun _ member => by cases member
  | (b, init) :: rest, owner, seen, own => by
    obtain ⟨ownField, own'⟩ := typedIn_cons.mp own
    obtain ⟨ownInit, ownRest⟩ := typedIn_append.mp own'
    refine Mark.forall_constrain (fun _ => trivial) ?_
    split
    · exact List.forall_mem_singleton.mpr trivial
    · simp only [List.forall_mem_append]
      exact ⟨⟨over_constraints names ownInit,
        List.forall_mem_singleton.mpr ⟨ownField rfl, handle_in ownInit⟩⟩,
        overFields_constraints names ownRest⟩

end

private theorem exists_impossible_of_repeated {fields : List (Binding × Expr)} {owner : Handle}
    {seen : List String} (repeated : ¬ ((∀ field ∈ fields, field.1.name ∉ seen) ∧
      (fields.map fun (b, _) => b.name).Nodup)) :
    ∃ con ∈ constraintsFields env owner seen fields, con.Impossible := by
  induction fields generalizing seen with
  | nil => simp at repeated
  | cons field rest ih =>
    obtain ⟨b, init⟩ := field
    rw [constraintsFields, Mark.constrain]
    cases b.mark.id with
    | none => exact ⟨_, List.mem_singleton_self _, trivial⟩
    | some id =>
      by_cases known : b.name ∈ seen
      · simp only [if_pos known]
        exact ⟨_, List.mem_singleton_self _, trivial⟩
      · simp only [if_neg known]
        have later : ¬ ((∀ field ∈ rest, field.1.name ∉ b.name :: seen) ∧
            (rest.map fun (b, _) => b.name).Nodup) := by grind
        obtain ⟨con, member, impossible⟩ := ih later
        exact ⟨con, List.mem_append_right _ member, impossible⟩

mutual

/-- A record is bound only after a repeated field name would have been found. -/
theorem orderly_constraints : ∀ {e : Expr}, Orderly (e.constraints env)
  | num .. | input .. | null .. => Mark.orderly_constrain (orderly_single trivial)
  | var .. | addrOf .. =>
    Mark.orderly_constrain (Env.orderly_constrain fun _ => orderly_single trivial)
  | binary m op lhs rhs => by
    refine Mark.orderly_constrain (orderly_append (orderly_append (orderly_append
      orderly_constraints (.inl orderly_constraints)) (.inl ?_)) (.inl (orderly_single trivial)))
    split
    · exact orderly_single trivial
    · exact ⟨trivial, .inr (orderly_single trivial)⟩
  | call .. =>
    Mark.orderly_constrain (orderly_append (orderly_append orderly_constraints
      (.inl orderly_constraintsAll)) (.inl (orderly_single trivial)))
  | alloc .. | deref .. | access .. =>
    Mark.orderly_constrain (orderly_append orderly_constraints (.inl (orderly_single trivial)))
  | record m fields => by
    refine Mark.orderly_constrain (orderly_append orderly_constraintsFields ?_)
    by_cases distinct : (fields.map fun (b, _) => b.name).Nodup
    · refine .inl (orderly_single ?_)
      rw [Constraint.DistinctNames, Term.DistinctNames, fieldHandles, List.map_map]
      exact distinct
    · exact .inr (exists_impossible_of_repeated fun ⟨_, nodup⟩ => distinct nodup)

private theorem orderly_constraintsAll : ∀ {es : List Expr}, Orderly (constraintsAll env es)
  | [] => trivial
  | _ :: _ => orderly_append orderly_constraints (.inl orderly_constraintsAll)

private theorem orderly_constraintsFields : ∀ {fields : List (Binding × Expr)} {owner : Handle}
    {seen : List String}, Orderly (constraintsFields env owner seen fields)
  | [], _, _ => trivial
  | (b, init) :: rest, owner, seen => by
    refine Mark.orderly_constrain ?_
    split
    · exact orderly_single trivial
    · exact orderly_append (orderly_append orderly_constraints (.inl (orderly_single trivial)))
        (.inl orderly_constraintsFields)

end

end Expr

namespace Stmt

variable {S : Handle → Prop} {result : Handle}

mutual

/-- Besides its typed nodes and names, a statement equates what it returns with the return slot. -/
theorem over_constraints (names : ∀ name h, env name = some h → S h) :
    ∀ {s : Stmt}, TypedIn S s.nodes → ∀ con ∈ s.constraints env result,
      con.Over S ∨ ∃ arg span, S arg ∧ con = .unify arg result span
  | declare .., _ => fun _ member => by cases member
  | block _ body, own => overAll_constraints names (typedIn_cons.mp own).2
  | assign _ lhs rhs, own => by
    obtain ⟨ownLeft, ownRight⟩ := typedIn_append.mp (typedIn_cons.mp own).2
    simp only [constraints, List.forall_mem_append, List.forall_mem_singleton]
    exact ⟨⟨fun con member => .inl (Expr.over_constraints names ownLeft con member),
      fun con member => .inl (Expr.over_constraints names ownRight con member)⟩,
      .inl ⟨Expr.handle_in ownLeft, Expr.handle_in ownRight⟩⟩
  | loop _ cond body, own => by
    obtain ⟨ownCond, ownBody⟩ := typedIn_append.mp (typedIn_cons.mp own).2
    simp only [constraints, List.forall_mem_append, List.forall_mem_singleton]
    exact ⟨⟨fun con member => .inl (Expr.over_constraints names ownCond con member),
      .inl ⟨Expr.handle_in ownCond, fun _ member => by cases member⟩⟩,
      over_constraints names ownBody⟩
  | branch _ cond yes none, own => by
    obtain ⟨ownCond, ownYes⟩ := typedIn_append.mp (typedIn_cons.mp own).2
    simp only [constraints, List.forall_mem_append, List.forall_mem_singleton]
    exact ⟨⟨fun con member => .inl (Expr.over_constraints names ownCond con member),
      .inl ⟨Expr.handle_in ownCond, fun _ member => by cases member⟩⟩,
      over_constraints names ownYes⟩
  | branch _ cond yes (some no), own => by
    obtain ⟨ownFront, ownNo⟩ := typedIn_append.mp (typedIn_cons.mp own).2
    obtain ⟨ownCond, ownYes⟩ := typedIn_append.mp ownFront
    simp only [constraints, List.forall_mem_append, List.forall_mem_singleton]
    exact ⟨⟨⟨fun con member => .inl (Expr.over_constraints names ownCond con member),
      .inl ⟨Expr.handle_in ownCond, fun _ member => by cases member⟩⟩,
      over_constraints names ownYes⟩, over_constraints names ownNo⟩
  | output m arg, own | error m arg, own => by
    have ownArg := (typedIn_cons.mp own).2
    simp only [constraints, List.forall_mem_append, List.forall_mem_singleton]
    exact ⟨fun con member => .inl (Expr.over_constraints names ownArg con member),
      .inl ⟨Expr.handle_in ownArg, fun _ member => by cases member⟩⟩
  | ret m arg, own => by
    have ownArg := (typedIn_cons.mp own).2
    simp only [constraints, List.forall_mem_append, List.forall_mem_singleton]
    exact ⟨fun con member => .inl (Expr.over_constraints names ownArg con member),
      .inr ⟨arg.handle, m.span, Expr.handle_in ownArg, rfl⟩⟩

private theorem overAll_constraints (names : ∀ name h, env name = some h → S h) :
    ∀ {body : List Stmt}, TypedIn S (nodesAll body) → ∀ con ∈ constraintsAll env result body,
      con.Over S ∨ ∃ arg span, S arg ∧ con = .unify arg result span
  | [], _ => fun _ member => by cases member
  | s :: rest, own => by
    obtain ⟨first, others⟩ := typedIn_append.mp own
    exact List.forall_mem_append.mpr
      ⟨over_constraints names first, overAll_constraints names others⟩

end

mutual

theorem orderly_constraints : ∀ {s : Stmt}, Orderly (s.constraints env result)
  | declare .. => trivial
  | block .. => orderly_constraintsAll
  | assign .. =>
    orderly_append (orderly_append Expr.orderly_constraints (.inl Expr.orderly_constraints))
      (.inl (orderly_single trivial))
  | loop .. | branch _ _ _ none =>
    orderly_append (orderly_append Expr.orderly_constraints (.inl (orderly_single trivial)))
      (.inl orderly_constraints)
  | branch _ _ _ (some _) =>
    orderly_append (orderly_append (orderly_append Expr.orderly_constraints
      (.inl (orderly_single trivial))) (.inl orderly_constraints)) (.inl orderly_constraints)
  | output .. | error .. | ret .. =>
    orderly_append Expr.orderly_constraints (.inl (orderly_single trivial))

private theorem orderly_constraintsAll :
    ∀ {body : List Stmt}, Orderly (constraintsAll env result body)
  | [] => trivial
  | _ :: _ => orderly_append orderly_constraints (.inl orderly_constraintsAll)

end

end Stmt

end Generate

end TypeInference
