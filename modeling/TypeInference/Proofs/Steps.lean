import TypeInference.Checker.Finish
import TypeInference.Proofs.Calls
import TypeInference.Proofs.Driving

/-!
# The steps of a check

A run of a check is a sequence of small steps: each makes one call on the store, mints one handle or
notes something. Taking a run apart at its sequences until steps are left gives the points of the
run, the checkers that its steps leave one after the other up to the one it ends with.
-/

set_option autoImplicit false

namespace TypeInference

namespace Checker

/-- One step of a check. -/
inductive Step (c : Checker) : Checker → Prop
  /-- A handle is minted. -/
  | mint (span : Span) : Step c { c with nodes := c.nodes.mint span }
  /-- A call is made on the store, with or without a conflict. Calls only add links and terms, so
  that what the store speaks of during one it speaks of at its end. -/
  | call (call : Call) (log : Array Event) :
    Step c { c with store := (call.run c.store).store, log }
  /-- Neither the table nor the store changes. -/
  | note {c' : Checker} (nodes : c'.nodes = c.nodes) (store : c'.store = c.store) : Step c c'

/-- Steps lead from one checker to another by way of the given ones, the last included. -/
inductive Path : Checker → List Checker → Checker → Prop
  | nil (c : Checker) : Path c [] c
  | cons {c d e : Checker} {points : List Checker} (step : c.Step d) (path : Path d points e) :
    Path c (d :: points) e

private theorem Path.append {c d e : Checker} {xs ys : List Checker} (first : Path c xs d)
    (second : Path d ys e) : Path c (xs ++ ys) e := by
  induction first with
  | nil => exact second
  | cons step _ ih => exact .cons step (ih second)

/-- A run that is one step, whether it succeeds or not. -/
def IsStep {α : Type} (m : CheckM α) : Prop := ∀ c : Checker, c.Step (c.after m)

section Steps

variable {α : Type} {span : Span}

theorem isStep_mint (span : Span) : IsStep (mint span) := fun _ => .mint span

private theorem isStep_modify {g : Checker → Checker} (nodes : ∀ c, (g c).nodes = c.nodes)
    (store : ∀ c, (g c).store = c.store) : IsStep (modify g) := fun c => .note (nodes c) (store c)

theorem isStep_pure (a : α) : IsStep (pure a : CheckM α) := fun _ => .note rfl rfl

private theorem isStep_look : IsStep (get : CheckM Checker) := fun _ => .note rfl rfl

theorem isStep_emit (event : Event) : IsStep (emit event) := fun _ => .note rfl rfl

theorem isStep_throw (e : TypeError) : IsStep (throw e : CheckM α) := fun _ => .note rfl rfl

private theorem isStep_get {f : Checker → CheckM α} (each : ∀ c, IsStep (f c)) :
    IsStep (get >>= f) :=
  fun c => each c c

private theorem isStep_call (span : Span) (call : Call) : IsStep (absorb span call.run) := by
  intro c
  rw [after, absorb]
  cases (call.run c.store).conflict? with
  | none => exact .call call _
  | some conflict => exact .call call _

theorem isStep_bindAt (node : Handle) (term : Term) : IsStep (bindAt span node term) :=
  isStep_call span (.bind node term)

theorem isStep_unifyAt (left right : Handle) : IsStep (unifyAt span left right) :=
  isStep_call span (.unify left right)

private theorem isStep_refuseAt (reason : Reason) (left right : Handle) (expected found : String) :
    IsStep (refuseAt span reason left right expected found : CheckM α) := fun _ => .note rfl rfl

private theorem isStep_of_maintains {m : CheckM α} (same : ∀ (nodes : NodeTable) (store : Store),
    Maintains (fun c => c.nodes = nodes ∧ c.store = store) m) : IsStep m := by
  intro c
  obtain ⟨nodes, store⟩ := (same c.nodes c.store c ⟨rfl, rfl⟩).after
  exact .note nodes store

private theorem isStep_require (m : Mark) (kind : NodeKind) : IsStep (require m kind) :=
  isStep_of_maintains fun _ _ => maintains_require m kind

private theorem isStep_requireAll (bs : List Binding) (kind : NodeKind) :
    IsStep (bs.mapM fun b => require b.mark kind) :=
  isStep_of_maintains fun _ _ => maintains_requireAll kind

theorem isStep_declare (kind : NodeKind) (b : Binding) : IsStep (declare kind b) :=
  isStep_of_maintains fun _ _ => maintains_declare_of_scope (fun _ _ => id) kind b

theorem isStep_solveCall (callee : Handle) (args : List Handle) (result : Handle) :
    IsStep (solveCall callee args result span) := by
  refine isStep_get fun c => ?_
  dsimp only
  split
  · split
    · exact isStep_bindAt _ _
    · exact isStep_refuseAt _ _ _ _ _
  · exact isStep_bindAt _ _
  · exact isStep_refuseAt _ _ _ _ _

theorem isStep_solveDeref (pointer target : Handle) : IsStep (solveDeref pointer target span) := by
  refine isStep_get fun c => ?_
  dsimp only
  split
  · exact isStep_bindAt _ _
  · exact isStep_bindAt _ _
  · exact isStep_refuseAt _ _ _ _ _

theorem isStep_solveAccess (a : Access) (known : Term) : IsStep (solveAccess a known) := by
  refine isStep_get fun c => ?_
  cases known with
  | record fields =>
    dsimp only
    split
    · exact isStep_unifyAt _ _
    · exact isStep_refuseAt _ _ _ _ _
  | int | pointer _ | function _ _ => exact isStep_refuseAt _ _ _ _ _

theorem isStep_access (a : Access) : IsStep (solve (.access a)) := by
  refine isStep_get fun c => ?_
  cases c.store.term? a.record with
  | some known => exact isStep_solveAccess a known
  | none => exact isStep_modify (fun _ => rfl) fun _ => rfl

private theorem isStep_rejectUnresolved (typed : List Handle) :
    IsStep (rejectUnresolved typed) := by
  refine isStep_get fun c => ?_
  split
  · exact isStep_throw _
  · exact fun _ => .note rfl rfl

end Steps

/-- A run taken apart into steps. -/
inductive Steps : {α : Type} → CheckM α → Type 1
  | step {α : Type} {m : CheckM α} (isStep : IsStep m) : Steps m
  | bind {α β : Type} {m : CheckM α} {f : α → CheckM β} (first : Steps m)
      (next : ∀ a, Steps (f a)) : Steps (m >>= f)

namespace Steps

variable {α β : Type} {m : CheckM α}

/-- The checkers that the steps of a run leave, in order. After an error there are no more. -/
def points {α : Type} {m : CheckM α} : Steps m → Checker → List Checker
  | step _, c => [c.after m]
  | .bind (m := x) first next, c => first.points c ++
    match x c with
    | .ok a c' => (next a).points c'
    | .error _ _ => []

/-- The points of a run lead step by step to where it ends. -/
theorem path (steps : Steps m) (c : Checker) : Path c (steps.points c) (c.after m) := by
  induction steps generalizing c with
  | step isStep => exact .cons (isStep c) (.nil _)
  | @bind _ _ x f first next ihFirst ihNext =>
    have before := ihFirst c
    rw [points]
    rw [after] at before ⊢
    cases ran : x c with
    | ok a c' =>
      rw [ran] at before
      rw [bind_apply_ok ran]
      exact before.append (ihNext a c')
    | error e c' =>
      rw [ran] at before
      rw [bind_apply_error ran, List.append_nil]
      exact before

/-- Look at the checker before going on. -/
abbrev look {f : Checker → CheckM α} (next : ∀ c, Steps (f c)) : Steps (get >>= f) :=
  .bind (.step isStep_look) next

/-- Runs that are equal have the same steps. -/
def ofEq {m' : CheckM α} (steps : Steps m') (same : m = m') : Steps m := same ▸ steps

/-- A choice by a condition that can be decided. -/
def ite {P : Prop} [decided : Decidable P] {n : CheckM α} (yes : P → Steps m) (no : ¬ P → Steps n) :
    Steps (if P then m else n) :=
  match decided with
  | isTrue holds => yes holds
  | isFalse fails => no fails

def forM {step : β → CheckM Unit} (each : ∀ x, Steps (step x)) :
    (xs : List β) → Steps (xs.forM step)
  | [] => .step (isStep_pure ())
  | x :: rest => .bind (each x) fun _ => forM each rest

def discard (steps : Steps m) : Steps (Functor.discard m) :=
  (Steps.bind steps fun _ => .step (isStep_pure ())).ofEq (discard_eq m)

/-! ### The steps of each part of a check -/

/-- Only a null node takes two steps. -/
def solve : (con : Constraint) → Steps (Checker.solve con)
  | .bind .. => .step (isStep_bindAt _ _)
  | .unify .. => .step (isStep_unifyAt _ _)
  | .call .. => .step (isStep_solveCall _ _ _)
  | .deref .. => .step (isStep_solveDeref _ _)
  | .null .. => .bind (.step (isStep_mint _)) fun _ => .step (isStep_bindAt _ _)
  | .access a => .step (isStep_access a)
  | .repeatedField .. => .step (isStep_refuseAt _ _ _ _ _)
  | .reject error => .step (isStep_throw error)

def solveAll : (cs : List Constraint) → Steps (Checker.solveAll cs)
  | [] => .step (isStep_pure ())
  | con :: rest => .bind (solve con) fun _ => solveAll rest

def signature (f : Function) : Steps (Checker.signature f) :=
  .bind (.step (isStep_require _ _)) fun id => .look fun c =>
    match c.returns[id]? with
    | some result => .step (isStep_pure result)
    | none =>
      .bind (.step (isStep_requireAll _ _)) fun _ =>
      .bind (.step (isStep_mint _)) fun result =>
      .bind (.step (isStep_modify (fun _ => rfl) fun _ => rfl)) fun _ =>
      .bind (.step (isStep_bindAt _ _)) fun _ => .step (isStep_pure result)

def declareFunction (f : Function) : Steps (Checker.declareFunction f) :=
  .bind (.step (isStep_require _ _)) fun _ => .look fun _ =>
    .ite (fun _ => .bind (.step (isStep_throw _)) fun _ => declares) fun _ => declares
where
  declares {id : Handle} : Steps (do
      modify fun c => { c with functions := c.functions.insert f.name id }
      Functor.discard (Checker.signature f)) :=
    .bind (.step (isStep_modify (fun _ => rfl) fun _ => rfl)) fun _ => .discard (signature f)

def enterFunction (f : Function) : Steps (Checker.enterFunction f) :=
  .bind (.step (isStep_emit _)) fun _ =>
  .bind (signature f) fun result =>
  .bind (.step (isStep_modify (fun _ => rfl) fun _ => rfl)) fun _ =>
  .bind (.forM (fun b => .step (isStep_declare _ b)) f.formals) fun _ =>
  .bind (.forM (fun b => .step (isStep_declare _ b)) f.locals) fun _ => .step (isStep_pure result)

def checkStmt (result : Handle) (s : Stmt) : Steps (Checker.checkStmt result s) :=
  .look fun _ => solveAll _

def checkExpr (e : Expr) : Steps (Checker.checkExpr e) :=
  .look fun _ => .bind (solveAll _) fun _ => .step (isStep_pure _)

def checkFunction (f : Function) : Steps (Checker.checkFunction f) :=
  .bind (enterFunction f) fun result => .forM (checkStmt result) f.body

def declareFunctions (p : Program) : Steps (Checker.declareFunctions p) :=
  .forM declareFunction p.functions

def checkProgram (p : Program) : Steps (Checker.checkProgram p) :=
  .bind (.discard (.step (isStep_require _ _))) fun _ =>
  .bind (declareFunctions p) fun _ => .forM checkFunction p.functions

def retry : (waiting : List Access) → Steps (Checker.retry waiting)
  | [] => .step (isStep_pure [])
  | a :: rest => .look fun c =>
    match c.store.term? a.record with
    | some known => .bind (.step (isStep_solveAccess a known)) fun _ => retry rest
    | none => .bind (retry rest) fun _ => .step (isStep_pure _)

def settle (waiting : List Access) : Steps (Checker.settle waiting) :=
  (Steps.bind (retry waiting) fun left =>
    .ite (fun _ => settle left) fun _ => .step (isStep_pure left)).ofEq (settle.eq_1 waiting)
termination_by waiting.length

def settleAll : Steps Checker.settleAll :=
  .look fun c => .bind (settle c.waiting) fun left =>
  .bind (.step (isStep_modify (fun _ => rfl) fun _ => rfl)) fun _ =>
    match left with
    | [] => .step (isStep_pure ())
    | _ :: _ => .look fun _ => .step (isStep_throw _)

def defaultNode (h : Handle) : Steps (Checker.defaultNode h) :=
  .look fun c => .forM (fun _ => .bind (.step (isStep_emit _)) fun _ => .step (isStep_bindAt _ _))
    (c.store.unresolvedRoots h)

def finish : (policy : Policy) → Steps (Checker.finish policy)
  | .reject => .bind settleAll fun _ => .look fun _ =>
    .bind (.step (isStep_rejectUnresolved _)) fun _ => answers
  | .defaultToInt => .bind settleAll fun _ => .look fun c =>
    .bind (.forM defaultNode c.nodes.typed) fun _ => answers
where
  answers {event : Event} : Steps (do
      emit event
      let c ← get
      return { nodes := c.nodes, store := c.store, functions := c.functions : Typing }) :=
    .bind (.step (isStep_emit _)) fun _ => .look fun _ => .step (isStep_pure _)

def checkAll (policy : Policy) (p : Program) : Steps (Checker.checkAll policy p) :=
  .bind (checkProgram p) fun _ => finish policy

end Steps

end Checker

end TypeInference
