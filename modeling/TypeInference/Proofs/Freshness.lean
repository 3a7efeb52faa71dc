import TypeInference.Proofs.Declarations
import TypeInference.Proofs.Handles
import TypeInference.Proofs.Steps

/-!
# Minted handles are new

The handle that is minted next is the number of rows in the table. Whatever is called and however it
ends, every handle that a checker holds has a row, at the end and at every point before: those in
its store, those that names mean and the return slots. So a handle is held nowhere before it is
minted.
-/

set_option autoImplicit false

namespace TypeInference

private theorem Numbered.lt_size {table : NodeTable} {nodes : List Node}
    (numbered : Numbered table nodes) {n : Node} (member : n ∈ nodes) :
    ∃ h, n.id = some h ∧ h < table.size := by
  obtain ⟨h, carried, found⟩ := numbered n member
  refine ⟨h, carried, ?_⟩
  by_contra outside
  rw [NodeTable.get?, Array.getElem?_eq_none (Nat.not_lt.mp outside)] at found
  cases found

theorem Numbered.typedIn_below {table : NodeTable} {nodes : List Node}
    (numbered : Numbered table nodes) {n : Nat} (le : table.size ≤ n) :
    TypedIn (· < n) nodes := by
  intro node member typed
  exact (numbered.typedIn node member typed).lt_size.trans_le le

namespace Checker

/-- Every handle that the checker holds has a row in its table. -/
structure Tabled (c : Checker) : Prop where
  formed : c.store.Formed
  store : c.store.Over (· < c.nodes.size)
  functions : ∀ (name : String) (h : Handle), c.functions[name]? = some h → h < c.nodes.size
  returns : ∀ f h : Handle, c.returns[f]? = some h → h < c.nodes.size
  scope : ∀ (name : String) (h : Handle), c.scope[name]? = some h → h < c.nodes.size

/-- A later checker, with more rows or as many and every handle in its table. -/
structure Grows (c c' : Checker) : Prop where
  size_le : c.nodes.size ≤ c'.nodes.size
  tabled : c'.Tabled

/-- Run from `c`, a step leaves a later checker, and what it gives is as `K` says. -/
def Keeps {α : Type} (c : Checker) (m : CheckM α) (K : α → Checker → Prop) : Prop :=
  c.Ending m (fun a c' => c.Grows c' ∧ K a c') fun _ c' => c.Grows c'

/-- Run from `c`, steps leave later checkers all the way, and what they give is as `K` says. -/
def Passes {α : Type} {m : CheckM α} (c : Checker) (steps : Steps m) (K : α → Checker → Prop) :
    Prop :=
  (∀ d ∈ steps.points c, c.Grows d) ∧ c.Keeps m K

theorem tabled_start (table : NodeTable) : Tabled { nodes := table } where
  formed := Store.formed_empty
  store := Store.over_empty _
  functions name h found := by
    rw [Std.TreeMap.getElem?_emptyc] at found
    cases found
  returns f h found := by
    rw [Std.TreeMap.getElem?_emptyc] at found
    cases found
  scope name h found := by
    rw [Std.TreeMap.getElem?_emptyc] at found
    cases found

section Tabled

variable {c c' c'' : Checker}

private theorem Tabled.env (tabled : c.Tabled) {name : String} {h : Handle}
    (found : c.env name = some h) : h < c.nodes.size := by
  rw [Checker.env, Option.or_eq_some_iff] at found
  rcases found with inScope | ⟨-, declared⟩
  · exact tabled.scope name h inScope
  · exact tabled.functions name h declared

private theorem Grows.refl (tabled : c.Tabled) : c.Grows c := ⟨Nat.le_refl _, tabled⟩

private theorem Grows.trans (first : c.Grows c') (second : c'.Grows c'') : c.Grows c'' :=
  ⟨first.size_le.trans second.size_le, second.tabled⟩

/-- A change to nothing but the log and the accesses in waiting. -/
theorem Tabled.grows_of_same (tabled : c.Tabled) (nodes : c'.nodes = c.nodes)
    (store : c'.store = c.store) (names : c.SameNames c') : c.Grows c' where
  size_le := by rw [nodes]
  tabled := by
    constructor
    · rw [store]; exact tabled.formed
    · rw [store, nodes]; exact tabled.store
    · rw [names.functions, nodes]; exact tabled.functions
    · rw [names.returns, nodes]; exact tabled.returns
    · rw [names.scope, nodes]; exact tabled.scope

private theorem below_insert {α : Type} [Ord α] [Std.TransOrd α] {n : Nat}
    {map : Std.TreeMap α Handle} (below : ∀ (k : α) (h : Handle), map[k]? = some h → h < n)
    {key : α} {new : Handle} (row : new < n) :
    ∀ (k : α) (h : Handle), (map.insert key new)[k]? = some h → h < n := by
  intro k h found
  rw [Std.TreeMap.getElem?_insert] at found
  split at found
  · obtain rfl := Option.some.inj found
    exact row
  · exact below k h found

end Tabled

section Rules

variable {α β : Type} {c : Checker} {m : CheckM α} {K : α → Checker → Prop}

theorem keeps_pure (tabled : c.Tabled) {a : α} (ends : K a c) : c.Keeps (pure a) K :=
  ⟨.refl tabled, ends⟩

theorem keeps_throw (tabled : c.Tabled) (e : TypeError) : c.Keeps (throw e) K :=
  Grows.refl tabled

theorem keeps_modify {g : Checker → Checker} (grows : c.Grows (g c)) :
    c.Keeps (modify g) fun _ c' => c' = g c := ⟨grows, rfl⟩

private theorem Keeps.bind {f : α → CheckM β} {L : β → Checker → Prop} (first : c.Keeps m K)
    (second : ∀ a c', c.Grows c' → K a c' → c'.Keeps (f a) L) : c.Keeps (m >>= f) L :=
  Ending.bind first fun a c' ends => (second a c' ends.1 ends.2).imp
    (fun _ _ later => ⟨ends.1.trans later.1, later.2⟩) fun _ _ => ends.1.trans

private theorem Keeps.after (keeps : c.Keeps m K) : c.Grows (c.after m) :=
  Ending.after (I := c.Grows) (keeps.post fun _ _ => And.left)

theorem passes_step {isStep : IsStep m} (keeps : c.Keeps m K) : c.Passes (.step isStep) K :=
  ⟨List.forall_mem_singleton.mpr keeps.after, keeps⟩

theorem Passes.bind {first : Steps m} {f : α → CheckM β} {next : ∀ a, Steps (f a)}
    {L : β → Checker → Prop} (passes : c.Passes first K)
    (later : ∀ a c', c.Grows c' → K a c' → c'.Passes (next a) L) :
    c.Passes (.bind first next) L := by
  obtain ⟨before, keeps⟩ := passes
  rw [Passes, Steps.points]
  refine ⟨List.forall_mem_append.mpr ⟨before, fun d member => ?_⟩,
    keeps.bind fun a c' grows ends => (later a c' grows ends).2⟩
  cases ran : m c with
  | ok a c' =>
    rw [ran] at member
    obtain ⟨grows, ends⟩ := keeps.of_ok ran
    exact grows.trans ((later a c' grows ends).1 d member)
  | error e c' =>
    rw [ran] at member
    cases member

theorem passes_look {f : Checker → CheckM α} {next : ∀ c, Steps (f c)} (tabled : c.Tabled)
    (later : c.Passes (next c) K) : c.Passes (.look next) K :=
  ⟨List.forall_mem_cons.mpr ⟨.refl tabled, later.1⟩, later.2⟩

theorem passes_ofEq {m' : CheckM α} {steps : Steps m'} {same : m = m'}
    (passes : c.Passes steps K) : c.Passes (steps.ofEq same) K := by
  subst same
  exact passes

theorem passes_ite {P : Prop} [decided : Decidable P] {n : CheckM α} {yes : P → Steps m}
    {no : ¬ P → Steps n} (holds : ∀ h, c.Passes (yes h) K) (fails : ∀ h, c.Passes (no h) K) :
    c.Passes (.ite yes no) K := by
  cases decided with
  | isTrue h => exact holds h
  | isFalse h => exact fails h

theorem passes_forM {xs : List β} {step : β → CheckM Unit} {each : ∀ x, Steps (step x)}
    (tabled : c.Tabled)
    (passes : ∀ x ∈ xs, ∀ c', c.Grows c' → c'.Passes (each x) fun _ _ => True) :
    c.Passes (.forM each xs) fun _ _ => True := by
  induction xs generalizing c with
  | nil => exact passes_step (keeps_pure tabled trivial)
  | cons x rest ih =>
    obtain ⟨first, others⟩ := List.forall_mem_cons.mp passes
    refine (first c (.refl tabled)).bind fun _ c' grows _ => ih grows.tabled ?_
    exact fun y member c'' later => others y member c'' (grows.trans later)

private theorem passes_discard {steps : Steps m} (passes : c.Passes steps K) :
    c.Passes steps.discard fun _ _ => True :=
  passes_ofEq (passes.bind fun _ _ grows _ => passes_step (keeps_pure grows.tabled trivial))

/-- What is known of a run that succeeds can be used where it ends. -/
theorem Passes.and {steps : Steps m} {L : α → Checker → Prop} {E : TypeError → Checker → Prop}
    (passes : c.Passes steps K) (ending : c.Ending m L E) :
    c.Passes steps fun a c' => K a c' ∧ L a c' :=
  ⟨passes.1, (passes.2.and ending).post fun _ _ ends => ⟨ends.1.1, ends.1.2, ends.2⟩⟩

end Rules

section Steps

variable {c : Checker} {span : Span}

private theorem keeps_require (tabled : c.Tabled) {m : Mark} (kind : NodeKind) {h : Handle}
    (carried : m.id = some h) : c.Keeps (require m kind) fun h' c' => h' = h ∧ c' = c := by
  rw [Keeps, Ending, require_eq_ok carried]
  exact ⟨.refl tabled, rfl, rfl⟩

private theorem keeps_mint (tabled : c.Tabled) (span : Span) :
    c.Keeps (mint span) fun h c' => h = c.nodes.size ∧ h < c'.nodes.size := by
  have more : (c.nodes.mint span).size = c.nodes.size + 1 := NodeTable.size_mint ..
  have wider : ∀ h, h < c.nodes.size → h < (c.nodes.mint span).size := by
    intro h below
    omega
  have minted : Tabled { c with nodes := c.nodes.mint span } :=
    ⟨tabled.formed, tabled.store.mono wider,
      fun name h found => wider h (tabled.functions name h found),
      fun f h found => wider h (tabled.returns f h found),
      fun name h found => wider h (tabled.scope name h found)⟩
  refine ⟨⟨?_, minted⟩, rfl, ?_⟩
  · show c.nodes.size ≤ (c.nodes.mint span).size
    omega
  · show c.nodes.size < (c.nodes.mint span).size
    omega

private theorem keeps_absorb {work : Store → Report} (tabled : c.Tabled)
    (formed : (work c.store).store.Formed)
    (uses : (work c.store).store.Over (· < c.nodes.size)) :
    c.Keeps (absorb span work) fun _ _ => True := by
  have grows : ∀ log, c.Grows { c with store := (work c.store).store, log } := fun _ =>
    ⟨Nat.le_refl _, formed, uses, tabled.functions, tabled.returns, tabled.scope⟩
  exact ending_absorb (fun _ log => ⟨grows log, trivial⟩) fun _ _ log => grows log

theorem keeps_bindAt (tabled : c.Tabled) {node : Handle} {term : Term} (row : node < c.nodes.size)
    (rows : ∀ h ∈ term.children, h < c.nodes.size) :
    c.Keeps (bindAt span node term) fun _ _ => True :=
  keeps_absorb tabled (Store.formed_bind tabled.formed node term)
    (Store.over_bind tabled.formed.rooted tabled.store row rows)

private theorem keeps_unifyAt (tabled : c.Tabled) {left right : Handle} (row : left < c.nodes.size)
    (row' : right < c.nodes.size) : c.Keeps (unifyAt span left right) fun _ _ => True :=
  keeps_absorb tabled (Store.formed_solveAll tabled.formed _)
    (Store.over_unify tabled.formed.rooted tabled.store row row')

private theorem keeps_refuseAt {α : Type} (tabled : c.Tabled) (reason : Reason)
    (left right : Handle) (expected found : String) {K : α → Checker → Prop} :
    c.Keeps (refuseAt span reason left right expected found) K :=
  tabled.grows_of_same rfl rfl ⟨rfl, rfl, rfl⟩

private theorem keeps_solveCall (tabled : c.Tabled) {callee result : Handle} {args : List Handle}
    (row : callee < c.nodes.size) (rows : ∀ h ∈ args, h < c.nodes.size)
    (row' : result < c.nodes.size) :
    c.Keeps (solveCall callee args result span) fun _ _ => True := by
  have inside : ∀ h ∈ (Term.function args result).children, h < c.nodes.size := by
    simpa [Term.children, or_imp, forall_and] using ⟨rows, row'⟩
  refine ending_get ?_
  dsimp only
  split
  · split
    · exact keeps_bindAt tabled row inside
    · exact keeps_refuseAt tabled ..
  · exact keeps_bindAt tabled row inside
  · exact keeps_refuseAt tabled ..

private theorem keeps_solveDeref (tabled : c.Tabled) {pointer target : Handle}
    (row : pointer < c.nodes.size) (row' : target < c.nodes.size) :
    c.Keeps (solveDeref pointer target span) fun _ _ => True := by
  have inside : ∀ h ∈ (Term.pointer target).children, h < c.nodes.size := by
    simpa [Term.children] using row'
  refine ending_get ?_
  dsimp only
  split
  · exact keeps_bindAt tabled row inside
  · exact keeps_bindAt tabled row inside
  · exact keeps_refuseAt tabled ..

theorem keeps_solveAccess (tabled : c.Tabled) {a : Access} {known : Term}
    (bound : c.store.term? a.record = some known) (row : a.node < c.nodes.size) :
    c.Keeps (solveAccess a known) fun _ _ => True := by
  refine ending_get ?_
  cases known with
  | record fields =>
    dsimp only
    split
    · rename_i field found
      have member := List.mem_map_of_mem (f := Prod.snd) (mem_of_lookup found)
      exact keeps_unifyAt tabled row (tabled.store.children bound member)
    · exact keeps_refuseAt tabled ..
  | int | pointer _ | function _ _ => exact keeps_refuseAt tabled ..

theorem passes_solve (tabled : c.Tabled) {con : Constraint}
    (covered : con.Over (· < c.nodes.size)) : c.Passes (Steps.solve con) fun _ _ => True := by
  cases con with
  | bind node term span => exact passes_step (keeps_bindAt tabled covered.1 covered.2)
  | unify left right span => exact passes_step (keeps_unifyAt tabled covered.1 covered.2)
  | call callee args result span =>
    exact passes_step (keeps_solveCall tabled covered.1 covered.2.1 covered.2.2)
  | deref pointer target span => exact passes_step (keeps_solveDeref tabled covered.1 covered.2)
  | null node span =>
    refine (passes_step (keeps_mint tabled span)).bind fun fresh c' grows minted => ?_
    refine passes_step (keeps_bindAt grows.tabled (covered.trans_le grows.size_le) ?_)
    exact List.forall_mem_singleton.mpr minted.2
  | access a =>
    refine passes_step (ending_get ?_)
    split
    · rename_i known bound
      exact keeps_solveAccess tabled bound covered.1
    · exact ⟨tabled.grows_of_same rfl rfl ⟨rfl, rfl, rfl⟩, trivial⟩
  | repeatedField record field name span => exact passes_step (keeps_refuseAt tabled ..)
  | reject error => exact passes_step (keeps_throw tabled error)

private theorem passes_solveAll (tabled : c.Tabled) {cs : List Constraint}
    (covered : ∀ con ∈ cs, con.Over (· < c.nodes.size)) :
    c.Passes (Steps.solveAll cs) fun _ _ => True := by
  induction cs generalizing c with
  | nil => exact passes_step (keeps_pure tabled trivial)
  | cons con rest ih =>
    obtain ⟨first, others⟩ := List.forall_mem_cons.mp covered
    exact (passes_solve tabled first).bind fun _ _ grows _ => ih grows.tabled fun con member =>
      (others con member).mono fun _ below => below.trans_le grows.size_le

end Steps

section Program

variable {c : Checker} {table : NodeTable}

theorem Tabled.over_expr (tabled : c.Tabled) {e : Expr}
    (own : TypedIn (· < c.nodes.size) e.nodes) :
    ∀ con ∈ e.constraints c.env, con.Over (· < c.nodes.size) :=
  Expr.over_constraints (fun _ _ found => tabled.env found) own

theorem Tabled.over_stmt (tabled : c.Tabled) {result : Handle} (slot : result < c.nodes.size)
    {s : Stmt} (own : TypedIn (· < c.nodes.size) s.nodes) :
    ∀ con ∈ s.constraints c.env result, con.Over (· < c.nodes.size) := by
  intro con member
  rcases Stmt.over_constraints (fun _ _ found => tabled.env found) own con member with
    covered | ⟨arg, span, row, rfl⟩
  · exact covered
  · exact ⟨row, slot⟩

theorem passes_checkExpr (tabled : c.Tabled) {e : Expr}
    (own : TypedIn (· < c.nodes.size) e.nodes) :
    c.Passes (Steps.checkExpr e) fun _ _ => True :=
  passes_look tabled ((passes_solveAll tabled (tabled.over_expr own)).bind fun _ _ grows _ =>
    passes_step (keeps_pure grows.tabled trivial))

theorem passes_checkStmt (tabled : c.Tabled) {result : Handle} (slot : result < c.nodes.size)
    {s : Stmt} (own : TypedIn (· < c.nodes.size) s.nodes) :
    c.Passes (Steps.checkStmt result s) fun _ _ => True :=
  passes_look tabled (passes_solveAll tabled (tabled.over_stmt slot own))

section Function

variable {f : Function} (numbered : Numbered table f.nodes)

include numbered

private theorem function_row : f.mark.id = some f.mark.handle ∧ f.mark.handle < table.size := by
  obtain ⟨id, carried, row⟩ := numbered.lt_size List.mem_cons_self
  rw [Mark.handle, show f.mark.id = some id from carried]
  exact ⟨rfl, row⟩

private theorem passes_signature (tabled : c.Tabled) (inTable : table.size ≤ c.nodes.size) :
    c.Passes (Steps.signature f) fun slot c' => slot < c'.nodes.size := by
  obtain ⟨own, row⟩ := function_row numbered
  have formals : ∀ b ∈ f.formals, ∃ h, b.mark.id = some h ∧ h < table.size := fun b member =>
    numbered.lt_size (Function.formal_mem_nodes member)
  have asked : c.Keeps (f.formals.mapM fun b => require b.mark .formal) fun hs c' =>
      hs = f.formals.map (·.mark.handle) ∧ c' = c := by
    rw [Keeps, Ending, mapM_require_eq_ok fun b member => (formals b member).imp fun _ => And.left]
    exact ⟨.refl tabled, rfl, rfl⟩
  refine (passes_step (keeps_require tabled .function own)).bind ?_
  rintro _ c - ⟨rfl, rfl⟩
  refine passes_look tabled ?_
  cases found : c.returns[f.mark.handle]? with
  | some slot => exact passes_step (keeps_pure tabled (tabled.returns _ slot found))
  | none => ?_
  refine (passes_step asked).bind ?_
  rintro _ c - ⟨rfl, rfl⟩
  refine (passes_step (keeps_mint tabled f.mark.span)).bind fun slot c₁ grows minted => ?_
  have noted : c₁.Grows { c₁ with returns := c₁.returns.insert f.mark.handle slot } :=
    ⟨Nat.le_refl _, grows.tabled.formed, grows.tabled.store, grows.tabled.functions,
      below_insert grows.tabled.returns minted.2, grows.tabled.scope⟩
  refine (passes_step (keeps_modify noted)).bind fun _ c₂ grows' equal => ?_
  have inTable' : table.size ≤ c₂.nodes.size := (inTable.trans grows.size_le).trans grows'.size_le
  have slotRow : slot < c₂.nodes.size := minted.2.trans_le grows'.size_le
  refine (passes_step (keeps_bindAt grows'.tabled ?_ ?_)).bind fun _ c₃ grows'' _ =>
    passes_step (keeps_pure grows''.tabled (slotRow.trans_le grows''.size_le))
  · exact row.trans_le inTable'
  · refine List.forall_mem_append.mpr ⟨fun h member => ?_, List.forall_mem_singleton.mpr slotRow⟩
    obtain ⟨b, inFormals, rfl⟩ := List.mem_map.mp member
    obtain ⟨h, carried', row'⟩ := formals b inFormals
    rw [Mark.handle, carried']
    exact row'.trans_le inTable'

private theorem passes_declareFunction (tabled : c.Tabled) (inTable : table.size ≤ c.nodes.size) :
    c.Passes (Steps.declareFunction f) fun _ _ => True := by
  obtain ⟨own, row⟩ := function_row numbered
  have noted : c.Grows { c with functions := c.functions.insert f.name f.mark.handle } :=
    ⟨Nat.le_refl _, tabled.formed, tabled.store,
      below_insert tabled.functions (row.trans_le inTable), tabled.returns, tabled.scope⟩
  refine (passes_step (keeps_require tabled .function own)).bind ?_
  rintro _ c - ⟨rfl, rfl⟩
  refine passes_look tabled (passes_ite (fun _ => ?_) fun _ => ?_)
  · exact (passes_step (keeps_throw (K := fun _ _ => False) tabled _)).bind fun _ _ _ => False.elim
  · refine (passes_step (keeps_modify noted)).bind fun _ c' grows _ => ?_
    exact passes_discard
      (passes_signature numbered grows.tabled (inTable.trans grows.size_le))

omit numbered in
private theorem keeps_declare (tabled : c.Tabled) (inTable : table.size ≤ c.nodes.size)
    {kind : NodeKind} {b : Binding} {h : Handle} (carried : b.mark.id = some h)
    (row : h < table.size) : c.Keeps (declare kind b) fun _ _ => True := by
  have grows : c.Grows { c with scope := c.scope.insert b.name h } :=
    ⟨Nat.le_refl _, tabled.formed, tabled.store, tabled.functions, tabled.returns,
      below_insert tabled.scope (row.trans_le inTable)⟩
  rw [Keeps, Ending, declare_eq carried]
  by_cases known : c.scope.contains b.name
  · rw [if_pos known]
    exact grows
  · rw [if_neg known]
    exact ⟨grows, trivial⟩

private theorem passes_enterFunction (tabled : c.Tabled) (inTable : table.size ≤ c.nodes.size) :
    c.Passes (Steps.enterFunction f) fun slot c' => slot < c'.nodes.size := by
  have entered : c.Grows { c with log := c.log.push (.entered f.name) } :=
    tabled.grows_of_same rfl rfl ⟨rfl, rfl, rfl⟩
  refine (passes_step (keeps_modify entered)).bind fun _ c₁ grows₁ _ => ?_
  have inTable₁ := inTable.trans grows₁.size_le
  refine (passes_signature numbered grows₁.tabled inTable₁).bind fun slot c₂ grows₂ row => ?_
  have inTable₂ := inTable₁.trans grows₂.size_le
  have cleared : c₂.Grows { c₂ with scope := ∅ } := by
    refine ⟨Nat.le_refl _, grows₂.tabled.formed, grows₂.tabled.store, grows₂.tabled.functions,
      grows₂.tabled.returns, fun name h found => ?_⟩
    rw [Std.TreeMap.getElem?_emptyc] at found
    cases found
  refine (passes_step (keeps_modify cleared)).bind fun _ c₃ grows₃ _ => ?_
  have inTable₃ := inTable₂.trans grows₃.size_le
  refine (passes_forM grows₃.tabled fun b member c' grows => ?_).bind fun _ c₄ grows₄ _ => ?_
  · obtain ⟨h, carried, row⟩ := numbered.lt_size (Function.formal_mem_nodes member)
    exact passes_step
      (keeps_declare grows.tabled (inTable₃.trans grows.size_le) carried row)
  have inTable₄ := inTable₃.trans grows₄.size_le
  refine (passes_forM grows₄.tabled fun b member c' grows => ?_).bind fun _ c₅ grows₅ _ => ?_
  · obtain ⟨h, carried, row⟩ := numbered.lt_size (List.mem_cons_of_mem _
      (List.mem_append_right _ (Stmt.node_mem_of_localsAll member)))
    exact passes_step
      (keeps_declare grows.tabled (inTable₄.trans grows.size_le) carried row)
  refine passes_step (keeps_pure grows₅.tabled ?_)
  exact row.trans_le ((grows₃.size_le.trans grows₄.size_le).trans grows₅.size_le)

private theorem passes_checkFunction (tabled : c.Tabled) (inTable : table.size ≤ c.nodes.size) :
    c.Passes (Steps.checkFunction f) fun _ _ => True := by
  refine (passes_enterFunction numbered tabled inTable).bind fun slot c' grows row => ?_
  refine passes_forM grows.tabled fun s member c'' later => ?_
  have inTable' := (inTable.trans grows.size_le).trans later.size_le
  exact passes_checkStmt later.tabled (row.trans_le later.size_le)
    ((numbered.stmt member).typedIn_below inTable')

end Function

variable {p : Program} (numbered : Numbered table p.nodes)

include numbered

private theorem passes_declareFunctions (tabled : c.Tabled) (inTable : table.size ≤ c.nodes.size) :
    c.Passes (Steps.declareFunctions p) fun _ _ => True :=
  passes_forM tabled fun _ member _ grows =>
    passes_declareFunction (numbered.function member) grows.tabled (inTable.trans grows.size_le)

theorem passes_checkProgram (tabled : c.Tabled) (inTable : table.size ≤ c.nodes.size) :
    c.Passes (Steps.checkProgram p) fun _ _ => True := by
  obtain ⟨id, carried, -⟩ := numbered.lt_size List.mem_cons_self
  refine (passes_discard (passes_step (keeps_require tabled .program carried))).bind
    fun _ c₁ grows₁ _ => ?_
  have inTable₁ := inTable.trans grows₁.size_le
  refine (passes_declareFunctions numbered grows₁.tabled inTable₁).bind fun _ c₂ grows₂ _ => ?_
  refine passes_forM grows₂.tabled fun g member c' grows => ?_
  exact passes_checkFunction (numbered.function member) grows.tabled
    ((inTable₁.trans grows₂.size_le).trans grows.size_le)

end Program

end Checker

open Checker in
private theorem Entry.keeps_run {q : Program} {table : NodeTable}
    (numbered : Numbered table q.nodes) {c : Checker} (tabled : c.Tabled)
    (inTable : table.size ≤ c.nodes.size) {entry : Entry} (own : entry.part ∈ q.parts)
    (fits : entry.Slot (· < c.nodes.size)) : c.Keeps entry.run fun _ _ => True := by
  have part : Numbered table entry.part.nodes := fun n member =>
    numbered n (Part.nodes_subset_of_mem_preorder own member)
  cases entry with
  | checkProgram p => exact (passes_checkProgram part tabled inTable).2
  | declareFunctions p => exact (passes_declareFunctions part tabled inTable).2
  | enterFunction f => exact (passes_discard (passes_enterFunction part tabled inTable)).2
  | checkFunction f => exact (passes_checkFunction part tabled inTable).2
  | checkStmt result s => exact (passes_checkStmt tabled fits (part.typedIn_below inTable)).2
  | checkExpr e =>
    exact (passes_discard (passes_checkExpr tabled (part.typedIn_below inTable))).2

/-- However a checker is driven, every handle that it holds has a row in its table. -/
theorem Driven.tabled {q : Program} {table : NodeTable} (numbered : Numbered table q.nodes)
    {c : Checker} (driven : Driven q table (fun c h => h < c.nodes.size) c) :
    table.size ≤ c.nodes.size ∧ c.Tabled := by
  induction driven with
  | start => exact ⟨Nat.le_refl _, Checker.tabled_start table⟩
  | call driven own fits ih =>
    have grows := (Entry.keeps_run numbered ih.2 ih.1 own fits).after
    exact ⟨ih.1.trans grows.size_le, grows.tabled⟩

end TypeInference
