import TypeInference.Checker.Program
import TypeInference.Proofs.Checking
import TypeInference.Proofs.Parts

/-!
# Driving a checker

A driver calls the entry points of a checker in any order, each with a part of one program, and may
go on after an error with the checker as the error left it. What no step destroys, not even a step
that fails, holds of every checker that is reached in this way. In particular, no record that names
a field twice is ever bound: its fields are refused before that.
-/

set_option autoImplicit false

namespace TypeInference

namespace Checker

/-- A run leaves the property intact, whether it succeeds or not. -/
def Maintains {α : Type} (I : Checker → Prop) (m : CheckM α) : Prop :=
  ∀ c, I c → c.Ending m (fun _ => I) fun _ => I

section Names

variable {I : Checker → Prop}

theorem maintains_require (mark : Mark) (kind : NodeKind) : Maintains I (require mark kind) := by
  intro c holds
  rw [require]
  cases mark.id <;> exact holds

theorem maintains_requireAll {bs : List Binding} (kind : NodeKind) :
    Maintains I (bs.mapM fun b => require b.mark kind) := fun _ =>
  ending_mapM_each fun b _ => maintains_require b.mark kind

/-- What does not depend on the names in scope is left intact by a declaration. -/
theorem maintains_declare_of_scope (ignores : ∀ c scope, I c → I { c with scope })
    (kind : NodeKind) (b : Binding) : Maintains I (declare kind b) := by
  intro c holds
  refine (maintains_require b.mark kind c holds).bind fun id c' holds' => ending_get ?_
  refine ending_modify ?_
  split <;> exact ignores c' _ holds'

end Names

/-- The store comes from calls that bound no record with a name twice. -/
abbrev WellBuilt (c : Checker) : Prop := c.store.Built Term.DistinctNames

section WellBuilt

variable {span : Span}

private theorem maintains_absorb {work : Store → Report}
    (builds : ∀ s : Store, s.Built Term.DistinctNames → (work s).store.Built Term.DistinctNames) :
    Maintains WellBuilt (absorb span work) := fun c built =>
  ending_absorb (fun _ _ => builds c.store built) fun _ _ _ => builds c.store built

private theorem maintains_bindAt (node : Handle) {term : Term} (distinct : term.DistinctNames) :
    Maintains WellBuilt (bindAt span node term) :=
  maintains_absorb fun _ built => .bind built node distinct

private theorem maintains_unifyAt (left right : Handle) :
    Maintains WellBuilt (unifyAt span left right) :=
  maintains_absorb fun _ built => .unify built left right

private theorem maintains_refuseAt {α : Type} (reason : Reason) (left right : Handle)
    (expected found : String) :
    Maintains WellBuilt (refuseAt span reason left right expected found : CheckM α) :=
  fun _ built => built

private theorem maintains_solveCall (callee : Handle) (args : List Handle) (result : Handle) :
    Maintains WellBuilt (solveCall callee args result span) := by
  have plain : (Term.function args result).DistinctNames := trivial
  refine fun c built => ending_get ?_
  dsimp only
  split
  · split
    · exact maintains_bindAt callee plain c built
    · exact maintains_refuseAt _ _ _ _ _ c built
  · exact maintains_bindAt callee plain c built
  · exact maintains_refuseAt _ _ _ _ _ c built

private theorem maintains_solveDeref (pointer target : Handle) :
    Maintains WellBuilt (solveDeref pointer target span) := by
  have plain : (Term.pointer target).DistinctNames := trivial
  refine fun c built => ending_get ?_
  dsimp only
  split
  · exact maintains_bindAt pointer plain c built
  · exact maintains_bindAt pointer plain c built
  · exact maintains_refuseAt _ _ _ _ _ c built

private theorem maintains_solveAccess (a : Access) (known : Term) :
    Maintains WellBuilt (solveAccess a known) := by
  refine fun c built => ending_get ?_
  cases known with
  | record fields =>
    dsimp only
    split
    · exact maintains_unifyAt _ _ c built
    · exact maintains_refuseAt _ _ _ _ _ c built
  | int | pointer _ | function _ _ => exact maintains_refuseAt _ _ _ _ _ c built

private theorem maintains_solve {con : Constraint} (distinct : con.DistinctNames) :
    Maintains WellBuilt (solve con) := by
  cases con with
  | bind node term span => exact maintains_bindAt node distinct
  | unify left right span => exact maintains_unifyAt left right
  | call callee args result span => exact maintains_solveCall callee args result
  | deref pointer target span => exact maintains_solveDeref pointer target
  | null node span =>
    have plain (target : Handle) : (Term.pointer target).DistinctNames := trivial
    exact fun c built => maintains_bindAt node (plain _) { c with nodes := c.nodes.mint span } built
  | access a =>
    refine fun c built => ending_get ?_
    split
    · exact maintains_solveAccess a _ c built
    · exact built
  | repeatedField record field name span => exact maintains_refuseAt _ _ _ _ _
  | reject error => exact fun _ built => ending_throw built

private theorem maintains_solveAll {cs : List Constraint} (orderly : Constraint.Orderly cs) :
    Maintains WellBuilt (solveAll cs) := by
  induction cs with
  | nil => exact fun _ built => ending_pure built
  | cons con rest ih =>
    intro c built
    have first := maintains_solve orderly.1 c built
    obtain impossible | later := orderly.2
    · obtain ⟨e, c', failed⟩ := solve_eq_error_of_impossible (c := c) impossible
      rw [Ending, solveAll, bind_apply_error failed]
      exact first.of_error failed
    · exact first.bind fun _ => ih later

private theorem maintains_checkExpr (e : Expr) : Maintains WellBuilt (checkExpr e) := fun c built =>
  ending_get ((maintains_solveAll Expr.orderly_constraints c built).bind fun _ _ kept =>
    ending_pure kept)

private theorem maintains_checkStmt (result : Handle) (s : Stmt) :
    Maintains WellBuilt (checkStmt result s) := fun c built =>
  ending_get (maintains_solveAll Stmt.orderly_constraints c built)

private theorem maintains_signature (f : Function) : Maintains WellBuilt (signature f) := by
  intro c built
  refine (maintains_require f.mark .function c built).bind fun id c built => ending_get ?_
  split
  · exact built
  refine (maintains_requireAll .formal c built).bind fun formals c built => ?_
  have plain : (Term.function formals c.nodes.size).DistinctNames := trivial
  let c₁ : Checker := { c with
    nodes := c.nodes.mint f.mark.span, returns := c.returns.insert id c.nodes.size }
  exact (maintains_bindAt id plain c₁ built).bind fun _ _ kept => ending_pure kept

private theorem maintains_declareFunction (f : Function) :
    Maintains WellBuilt (declareFunction f) := by
  intro c built
  refine (maintains_require f.mark .function c built).bind fun id c built => ending_get ?_
  dsimp only
  split
  · exact built
  · exact ending_discard (maintains_signature f
      { c with functions := c.functions.insert f.name id } built)

private theorem maintains_declare (kind : NodeKind) (b : Binding) :
    Maintains WellBuilt (declare kind b) :=
  maintains_declare_of_scope (fun _ _ => id) kind b

private theorem maintains_enterFunction (f : Function) : Maintains WellBuilt (enterFunction f) := by
  intro c built
  have declares (kind : NodeKind) (bs : List Binding) :
      Maintains WellBuilt (bs.forM (declare kind)) := fun _ =>
    ending_forM_each fun b _ => maintains_declare kind b
  refine (maintains_signature f { c with log := c.log.push (.entered f.name) } built).bind
    fun result c built => ?_
  refine (declares .formal f.formals { c with scope := ∅ } built).bind fun _ c built => ?_
  exact (declares .localVar f.locals c built).bind fun _ _ kept => ending_pure kept

private theorem maintains_checkFunction (f : Function) : Maintains WellBuilt (checkFunction f) :=
  fun c built => (maintains_enterFunction f c built).bind fun result _ =>
    ending_forM_each fun s _ => maintains_checkStmt result s

private theorem maintains_declareFunctions (p : Program) :
    Maintains WellBuilt (declareFunctions p) :=
  fun _ => ending_forM_each fun f _ => maintains_declareFunction f

private theorem maintains_checkProgram (p : Program) : Maintains WellBuilt (checkProgram p) :=
  fun c built => (ending_discard (maintains_require p.mark .program c built)).bind fun _ c built =>
    (maintains_declareFunctions p c built).bind fun _ _ =>
      ending_forM_each fun f _ => maintains_checkFunction f

end WellBuilt

end Checker

/-- A call of a driver. A statement comes with the handle that its results are to agree with. -/
inductive Entry
  | checkProgram (p : Program)
  | declareFunctions (p : Program)
  | enterFunction (f : Function)
  | checkFunction (f : Function)
  | checkStmt (result : Handle) (s : Stmt)
  | checkExpr (e : Expr)

namespace Entry

/-- Make the call. -/
def run : Entry → CheckM Unit
  | checkProgram p => Checker.checkProgram p
  | declareFunctions p => Checker.declareFunctions p
  | enterFunction f => discard (Checker.enterFunction f)
  | checkFunction f => Checker.checkFunction f
  | checkStmt result s => Checker.checkStmt result s
  | checkExpr e => discard (Checker.checkExpr e)

/-- The part of the program that the call is about. -/
def part : Entry → Part
  | checkProgram p | declareFunctions p => .program p
  | enterFunction f | checkFunction f => .function f
  | checkStmt _ s => .stmt s
  | checkExpr e => .expr e

/-- The handle given for results, if there is one, has the property. -/
def Slot (P : Handle → Prop) : Entry → Prop
  | checkStmt result _ => P result
  | _ => True

private theorem maintains_run (entry : Entry) : Checker.Maintains Checker.WellBuilt entry.run := by
  cases entry with
  | checkProgram p => exact Checker.maintains_checkProgram p
  | declareFunctions p => exact Checker.maintains_declareFunctions p
  | enterFunction f =>
    exact fun c built => Checker.ending_discard (Checker.maintains_enterFunction f c built)
  | checkFunction f => exact Checker.maintains_checkFunction f
  | checkStmt result s => exact Checker.maintains_checkStmt result s
  | checkExpr e =>
    exact fun c built => Checker.ending_discard (Checker.maintains_checkExpr e c built)

end Entry

/-- The checkers that calls on parts of a program lead to, successful or not, where the handles
given for results are `slots` at the time. -/
inductive Driven (p : Program) (table : NodeTable) (slots : Checker → Handle → Prop) :
    Checker → Prop
  | start : Driven p table slots { nodes := table }
  | call {c : Checker} (driven : Driven p table slots c) {entry : Entry}
      (own : entry.part ∈ p.parts) (fits : entry.Slot (slots c)) :
      Driven p table slots (c.after entry.run)

theorem Driven.wellBuilt {p : Program} {table : NodeTable} {slots : Checker → Handle → Prop}
    {c : Checker} (driven : Driven p table slots c) : c.WellBuilt := by
  induction driven with
  | start => exact .empty
  | call driven own fits ih => exact (Entry.maintains_run _ _ ih).after

end TypeInference
