import TypeInference.Proofs.Identity
import TypeInference.Proofs.Policies
import TypeInference.Proofs.Rechecking
import TypeInference.Proofs.Scoping

/-!
# The table is only extended

A check adds rows to the node table and changes none. At every point of it the table has a row for
each handle in use, so the handle that is minted next is in use nowhere. A program that is accepted
has had one handle minted for the results of each function and one for the target of each null
pointer, in this order, and typed nodes are still those of the program alone.
-/

set_option autoImplicit false

namespace TypeInference

/-! ### Finishing -/

namespace Checker

section Finish

variable {c : Checker}

private theorem passes_retry (tabled : c.Tabled) {waiting : List Access}
    (rows : ∀ a ∈ waiting, a.node < c.nodes.size) :
    c.Passes (Steps.retry waiting) fun left c' => ∀ a ∈ left, a.node < c'.nodes.size := by
  induction waiting generalizing c with
  | nil => exact passes_step (keeps_pure tabled fun _ member => by cases member)
  | cons a rest ih =>
    obtain ⟨row, others⟩ := List.forall_mem_cons.mp rows
    refine passes_look tabled ?_
    cases bound : c.store.term? a.record with
    | some known =>
      refine (passes_step (keeps_solveAccess tabled bound row)).bind fun _ c' grows _ => ?_
      exact ih grows.tabled fun b member => (others b member).trans_le grows.size_le
    | none =>
      refine (ih tabled others).bind fun left c' grows below =>
        passes_step (keeps_pure grows.tabled ?_)
      exact List.forall_mem_cons.mpr ⟨row.trans_le grows.size_le, below⟩

private theorem passes_settle (tabled : c.Tabled) {waiting : List Access}
    (rows : ∀ a ∈ waiting, a.node < c.nodes.size) :
    c.Passes (Steps.settle waiting) fun _ _ => True := by
  induction waiting using settle.induct generalizing c with
  | case1 waiting ih =>
    rw [Steps.settle]
    refine passes_ofEq ((passes_retry tabled rows).bind fun left c' grows below => ?_)
    refine passes_ite (fun fewer => ?_) fun _ => passes_step (keeps_pure grows.tabled trivial)
    exact ih left fewer grows.tabled below

private theorem passes_settleAll (tabled : c.Tabled)
    (rows : ∀ a ∈ c.waiting, a.node < c.nodes.size) : c.Passes Steps.settleAll fun _ _ => True := by
  refine passes_look tabled ((passes_settle tabled rows).bind fun left c₁ grows _ => ?_)
  have noted : c₁.Grows { c₁ with waiting := left } :=
    grows.tabled.grows_of_same rfl rfl ⟨rfl, rfl, rfl⟩
  refine (passes_step (keeps_modify noted)).bind fun _ c₂ grows' _ => ?_
  cases left with
  | nil => exact passes_step (keeps_pure grows'.tabled trivial)
  | cons a rest =>
    exact passes_look grows'.tabled (passes_step (keeps_throw grows'.tabled _))

private theorem keeps_emit (tabled : c.Tabled) (event : Event) :
    c.Keeps (emit event) fun _ _ => True :=
  ⟨tabled.grows_of_same rfl rfl ⟨rfl, rfl, rfl⟩, trivial⟩

private theorem passes_defaultNode (tabled : c.Tabled) {h : Handle} (row : h < c.nodes.size) :
    c.Passes (Steps.defaultNode h) fun _ _ => True := by
  refine passes_look tabled (passes_forM tabled fun root member c₁ grows => ?_)
  have within := ((Store.mem_unresolvedRoots tabled.formed.rooted).mp member).1
  have rootRow : root < c.nodes.size := tabled.store.within within row
  refine (passes_step (keeps_emit grows.tabled _)).bind fun _ c₂ grows' _ => ?_
  refine passes_step (keeps_bindAt grows'.tabled ?_ fun _ member => by cases member)
  exact rootRow.trans_le (grows.size_le.trans grows'.size_le)

private theorem passes_answers (tabled : c.Tabled) {event : Event} :
    c.Passes (@Steps.finish.answers event) fun _ _ => True :=
  (passes_step (keeps_emit tabled _)).bind fun _ _ grows _ =>
    passes_look grows.tabled (passes_step (keeps_pure grows.tabled trivial))

private theorem passes_finish (policy : Policy) (tabled : c.Tabled)
    (rows : ∀ a ∈ c.waiting, a.node < c.nodes.size) :
    c.Passes (Steps.finish policy) fun _ _ => True := by
  cases policy with
  | reject =>
    refine (passes_settleAll tabled rows).bind fun _ c₁ grows _ => passes_look grows.tabled ?_
    have refused : c₁.Keeps (rejectUnresolved c₁.nodes.typed) fun _ _ => True := by
      refine ending_get ?_
      split
      · exact keeps_throw grows.tabled _
      · exact keeps_pure grows.tabled trivial
    exact (passes_step refused).bind fun _ _ grows' _ => passes_answers grows'.tabled
  | defaultToInt =>
    refine (passes_settleAll tabled rows).bind fun _ c₁ grows _ => passes_look grows.tabled ?_
    refine Passes.bind (passes_forM grows.tabled fun h member c₂ grows' => ?_)
      fun _ _ grows' _ => passes_answers grows'.tabled
    exact passes_defaultNode grows'.tabled
      ((NodeTable.mem_typed.mp member).lt_size.trans_le grows'.size_le)

end Finish

end Checker

/-! ### Rows -/

private theorem nullSpans_flatMap {α : Type} (xs : List α) (nodes : α → List Node) :
    nullSpans (xs.flatMap nodes) = xs.flatMap fun x => nullSpans (nodes x) := by
  simp [nullSpans, List.filter_flatMap, List.map_flatMap]

private theorem Function.nullSpans_nodes (f : Function) :
    nullSpans f.nodes = f.body.flatMap fun s => nullSpans s.nodes := by
  have formals : nullSpans (f.formals.map (·.node .formal)) = [] := by
    simp [nullSpans, List.filter_map, Function.comp_def, Binding.node, Mark.node]
  rw [nodes, nullSpans_cons (by simp [Mark.node]), nullSpans_append, formals, List.nil_append,
    Stmt.nodesAll_eq_flatMap, nullSpans_flatMap]

private theorem Program.nullSpans_nodes (q : Program) :
    nullSpans q.nodes = (q.parts.filter (·.kind = .null)).map (·.mark.span) := by
  rw [← map_node_parts, nullSpans, List.filter_map, List.map_map]
  rfl

namespace Checker

section Still

variable {α : Type} {c c' : Checker} {m : CheckM α} {table : NodeTable}

/-- A run that mints nothing. -/
def Still (m : CheckM α) : Prop := ∀ table, Maintains (fun c => c.nodes = table) m

private theorem Still.nodes (still : Still m) {a : α} (ran : m c = .ok a c') : c'.nodes = c.nodes :=
  (still c.nodes c rfl).of_ok ran

private theorem still_absorb (span : Span) (work : Store → Report) : Still (absorb span work) :=
  fun _ _ kept => ending_absorb (fun _ _ => kept) fun _ _ _ => kept

private theorem still_solveAccess (a : Access) (known : Term) : Still (solveAccess a known) := by
  refine fun table c kept => ending_get ?_
  cases known with
  | record fields =>
    dsimp only
    split
    · exact still_absorb _ _ table c kept
    · exact kept
  | int | pointer _ | function _ _ => exact kept

private theorem still_retry (waiting : List Access) : Still (retry waiting) := by
  intro table
  induction waiting with
  | nil => exact fun _ kept => ending_pure kept
  | cons a rest ih =>
    refine fun c kept => ending_get ?_
    split
    · exact (still_solveAccess a _ table c kept).bind fun _ => ih
    · exact (ih c kept).bind fun _ _ kept' => ending_pure kept'

private theorem still_settle (waiting : List Access) : Still (settle waiting) := by
  intro table
  induction waiting using settle.induct with
  | case1 waiting ih =>
    intro c kept
    rw [settle]
    refine (still_retry waiting table c kept).bind fun left c' kept' => ?_
    split
    · rename_i fewer
      exact ih left fewer c' kept'
    · exact ending_pure kept'

private theorem still_settleAll : Still settleAll := by
  refine fun table c kept => ending_get ?_
  refine (still_settle c.waiting table c kept).bind fun left c' kept' => ending_modify ?_
  cases left with
  | nil => exact ending_pure kept'
  | cons a rest => exact ending_get (ending_throw kept')

private theorem still_applyPolicy (policy : Policy) (typed : List Handle) :
    Still (applyPolicy policy typed) := by
  intro table c kept
  cases policy with
  | reject =>
    refine ending_get ?_
    split
    · exact ending_throw kept
    · exact ending_pure kept
  | defaultToInt =>
    refine ending_forM_each (fun h _ c kept => ending_get ?_) kept
    exact ending_forM_each (fun root _ c kept => ending_modify (still_absorb _ _ table _ kept)) kept

private theorem nodes_of_finish {policy : Policy} {t : Typing} (ran : finish policy c = .ok t c') :
    t.nodes = c.nodes := by
  obtain ⟨_, c₁, settled, -⟩ := exists_of_bind_eq_ok (m := settleAll) ran
  rw [finish_eq settled] at ran
  obtain ⟨_, c₂, applied, ended⟩ := exists_of_bind_eq_ok ran
  cases ended
  exact ((still_applyPolicy policy _).nodes applied).trans (still_settleAll.nodes settled)

end Still

section Program

variable {c c' : Checker} {table : NodeTable} {q : Program} {f : Function} {done : List Function}

private theorem nodes_of_solveAll {cs : List Constraint} (ran : solveAll cs c = .ok () c') :
    c'.nodes = (cs.flatMap Constraint.mints).foldl NodeTable.mint c.nodes := by
  induction cs generalizing c with
  | nil =>
    cases ran
    rfl
  | cons con rest ih =>
    obtain ⟨_, c₁, first, others⟩ := exists_of_bind_eq_ok ran
    have minted : c₁.nodes = con.mints.foldl NodeTable.mint c.nodes := by
      rcases makes_of_solve first with ⟨a, rfl, rfl⟩ | ⟨call, -, makes⟩
      · rfl
      · exact makes.nodes
    rw [ih others, minted, List.flatMap_cons, List.foldl_append]

private theorem nodes_of_declareFunction (declared : Declared table done c)
    (own : Numbered table f.nodes) (unused : f.mark.handle ∉ done.map (·.mark.handle))
    (ran : declareFunction f c = .ok () c') : c'.nodes = c.nodes.mint f.mark.span := by
  have numbers := declared.numbers own
  rw [declareFunction_eq numbers.carried] at ran
  split at ran
  · cases ran
  let c₁ : Checker := { c with functions := c.functions.insert f.name f.mark.handle }
  have signed : discard (signature f) c₁ = .ok () c' := ran
  rw [discard_eq] at signed
  obtain ⟨slot, c₂, signed, ended⟩ := exists_of_bind_eq_ok signed
  cases ended
  have fresh : c₁.returns[f.mark.handle]? = none := declared.returns_eq_none unused
  rw [signature_eq_mint numbers.carried numbers.numbered fresh] at signed
  obtain ⟨_, c₃, minted, signed⟩ := exists_of_bind_eq_ok signed
  cases minted
  obtain ⟨_, c₄, noted, signed⟩ := exists_of_bind_eq_ok signed
  cases noted
  obtain ⟨_, c₅, bound, ended⟩ := exists_of_bind_eq_ok signed
  cases ended
  exact (still_absorb _ _).nodes bound

private theorem nodes_of_checkStmt {slot : Handle} {s : Stmt} (own : Numbered table s.nodes)
    (ran : checkStmt slot s c = .ok () c') :
    c'.nodes = (nullSpans s.nodes).foldl NodeTable.mint c.nodes := by
  have solved : solveAll (s.constraints c.env slot) c = .ok () c' := ran
  have possible := (ending_solveAll (s.constraints c.env slot)).of_ok solved
  rw [nodes_of_solveAll solved, Stmt.mints_constraints own possible]

private theorem minting_checkFunction (numbered : Numbered table q.nodes) (member : f ∈ q.functions)
    (declared : Declared table q.functions c) :
    c.Ending (checkFunction f) (fun _ c' =>
      c'.nodes = (nullSpans f.nodes).foldl NodeTable.mint c.nodes ∧
        Declared table q.functions c') fun _ _ => True := by
  have own := numbered.function member
  have entering := (ending_enterFunction declared member own).imp (fun _ _ => id)
    fun _ _ _ => trivial
  refine entering.bind fun slot c₁ ends => ?_
  obtain ⟨same, entered, -⟩ := ends
  let I (done : List Stmt) (c' : Checker) : Prop :=
    c'.nodes = (done.flatMap fun s => nullSpans s.nodes).foldl NodeTable.mint c.nodes ∧
      Entered table q f slot c'
  have body : c₁.Ending (f.body.forM (checkStmt slot)) (fun _ c' => I f.body c')
      fun _ _ => True := by
    refine ending_forM (I := I) ?_ ⟨same.nodes, entered⟩
    rintro done s rest split c₂ ⟨minted, entered'⟩
    have inside : s ∈ f.body := by simp [split]
    refine (adding_checkStmt numbered member entered' inside).ran.imp
      (fun _ c₃ ends => ⟨?_, ends.1.2⟩) fun _ _ _ => trivial
    rw [nodes_of_checkStmt (own.stmt inside) ends.2, minted, List.flatMap_append,
      List.foldl_append, List.flatMap_singleton]
  refine body.post fun _ c' ends => ⟨?_, ends.2.declared⟩
  rw [ends.1, f.nullSpans_nodes]

private theorem minting_declareFunctions (numbered : Numbered table q.nodes)
    (nodup : (q.functions.map (·.mark.handle)).Nodup) :
    ({ nodes := table } : Checker).Ending (declareFunctions q) (fun _ c =>
      c.nodes = (q.functions.map (·.mark.span)).foldl NodeTable.mint table ∧
        Declared table q.functions c) fun _ _ => True := by
  let I (done : List Function) (c : Checker) : Prop :=
    c.nodes = (done.map (·.mark.span)).foldl NodeTable.mint table ∧ Declared table done c
  refine ending_forM (I := I) ?_ ⟨rfl, declared_start table⟩
  rintro done f rest split c ⟨minted, declared⟩
  have own := numbered.function (f := f) (by simp [split])
  have unused := not_mem_earlier nodup split
  have earlier : ∀ g ∈ done, ∃ h, g.mark.id = some h := fun g inDone =>
    numbered.function_id (by simp [split, inDone])
  refine (adding_declareFunction declared own earlier unused).ran.imp
    (fun _ c' ends => ⟨?_, ends.1.2⟩) fun _ _ _ => trivial
  rw [nodes_of_declareFunction declared own unused ends.2, minted, List.map_append,
    List.foldl_append]
  rfl

private theorem minting_checkProgram (numbered : Numbered table q.nodes)
    (nodup : (q.functions.map (·.mark.handle)).Nodup) :
    ({ nodes := table } : Checker).Ending (checkProgram q) (fun _ c => c.nodes =
      (q.functions.map (·.mark.span) ++ nullSpans q.nodes).foldl NodeTable.mint table)
      fun _ _ => True := by
  refine Ending.of_eq (Ending.bind (minting_declareFunctions numbered nodup) fun _ c₁ ends => ?_)
    (checkProgram_eq numbered)
  obtain ⟨minted, declared⟩ := ends
  let I (done : List Function) (c : Checker) : Prop :=
    c.nodes = (done.flatMap fun f => nullSpans f.nodes).foldl NodeTable.mint c₁.nodes ∧
      Declared table q.functions c
  have bodies : c₁.Ending (q.functions.forM checkFunction) (fun _ c => I q.functions c)
      fun _ _ => True := by
    refine ending_forM (I := I) ?_ ⟨rfl, declared⟩
    rintro done f rest split c₂ ⟨minted', declared'⟩
    refine (minting_checkFunction numbered (by simp [split]) declared').post
      fun _ c₃ ends => ⟨?_, ends.2⟩
    rw [ends.1, minted', List.flatMap_append, List.foldl_append, List.flatMap_singleton]
  refine bodies.post fun _ c' ends => ?_
  have inFunctions : nullSpans q.nodes = q.functions.flatMap fun f => nullSpans f.nodes := by
    rw [Program.nodes, nullSpans_cons (by simp [Mark.node]), nullSpans_flatMap]
  rw [ends.1, minted, inFunctions, List.foldl_append]

end Program

end Checker

/-- The row of a handle that is minted for a place. -/
def NodeInfo.minted (span : Span) : NodeInfo := { kind := .fresh, span }

namespace NodeTable

private theorem rows_foldl_mint (table : NodeTable) (spans : List Span) :
    (spans.foldl mint table).rows.toList = table.rows.toList ++ spans.map .minted := by
  induction spans generalizing table with
  | nil => simp
  | cons span rest ih =>
    rw [List.foldl_cons, ih]
    simp [mint, NodeInfo.minted]

private theorem typed_mint (table : NodeTable) (span : Span) :
    (table.mint span).typed = table.typed := by
  have last : ¬ (table.mint span).IsTyped table.size := fun typed =>
    absurd (isTyped_mint.mp typed).lt_size (Nat.lt_irrefl _)
  have others : ∀ h ∈ List.range table.size,
      ((table.mint span).get h).kind.isTyped = (table.get h).kind.isTyped := fun h _ =>
    Bool.eq_iff_iff.mpr isTyped_mint
  rw [IsTyped, Bool.not_eq_true] at last
  rw [typed, typed, size_mint, List.range_succ, List.filter_append, List.filter_congr others]
  simp [last]

private theorem typed_foldl_mint (table : NodeTable) (spans : List Span) :
    (spans.foldl mint table).typed = table.typed := by
  induction spans generalizing table with
  | nil => rfl
  | cons span rest ih => rw [List.foldl_cons, ih, typed_mint]

private theorem pairwise_typed (table : NodeTable) : table.typed.Pairwise (· < ·) :=
  List.pairwise_lt_range.filter _

end NodeTable

/-- Functions, names, expressions and record fields have a type. -/
def Part.isValue : Part → Bool
  | function _ | formal _ | localVar _ | expr _ | field .. => true
  | program _ | stmt _ => false

private theorem Part.isTyped_kind (a : Part) : a.kind.isTyped = a.isValue := by
  cases a with
  | expr e => cases e <;> rfl
  | stmt s => cases s <;> rfl
  | program | function | formal | localVar | field => rfl

private theorem Program.typed_of_assignIds {p q : Program} {table : NodeTable}
    (assigned : p.assignIds = .ok (q, table)) :
    table.typed = (q.parts.filter Part.isValue).map (·.mark.handle) := by
  have numbered := numbered_of_assignIds assigned
  obtain ⟨rfl, rfl⟩ := assignIds_eq_ok assigned
  have handles : p.number.parts.map (·.mark.handle) = List.range p.table.size := by
    have ids := congrArg (List.map fun id : Option Handle => id.getD 0) (map_id_parts_number p)
    rw [List.map_map, List.map_map] at ids
    rw [size_table]
    simpa [Function.comp_def, Mark.handle] using ids
  have kinds : ∀ a ∈ p.number.parts,
      (p.table.get a.mark.handle).kind.isTyped = a.isValue := by
    intro a member
    have inside : a.node ∈ p.number.nodes := p.number.map_node_parts ▸ List.mem_map_of_mem member
    obtain ⟨h, carried, found⟩ := numbered a.node inside
    have own : a.mark.handle = h := by rw [Mark.handle, show a.mark.id = some h from carried]; rfl
    rw [own, NodeTable.get, found, ← a.isTyped_kind]
    rfl
  rw [NodeTable.typed, ← handles, List.filter_map]
  exact congrArg _ (List.filter_congr kinds)

/-! ### A whole check -/

/-- The handle occurs in the store: it has a parent or is one, is bound to a term or stands inside
one. -/
def Store.Mentions (s : Store) (h : Handle) : Prop :=
  (∃ p, s.parents[h]? = some p) ∨ (∃ x : Handle, s.parents[x]? = some h) ∨
    (∃ t, s.terms[h]? = some t) ∨ ∃ (r : Handle) (t : Term), s.terms[r]? = some t ∧ h ∈ t.children

private theorem Store.Over.of_mentions {s : Store} {S : Handle → Prop} (uses : s.Over S)
    {h : Handle} (mentioned : s.Mentions h) : S h := by
  rcases mentioned with ⟨p, parent⟩ | ⟨x, parent⟩ | ⟨t, bound⟩ | ⟨r, t, bound, inside⟩
  · exact (uses.parents h p parent).1
  · exact (uses.parents x h parent).2
  · exact (uses.terms h t bound).1
  · exact (uses.terms r t bound).2 h inside

namespace Checker

private theorem Step.rows {c d : Checker} (step : c.Step d) :
    ∃ spans : List Span, d.nodes = spans.foldl NodeTable.mint c.nodes := by
  cases step with
  | mint span => exact ⟨[span], rfl⟩
  | call => exact ⟨[], rfl⟩
  | note nodes => exact ⟨[], nodes⟩

private theorem Path.rows {c e : Checker} {points : List Checker} (path : Path c points e) :
    ∀ d ∈ points, ∃ spans : List Span, d.nodes = spans.foldl NodeTable.mint c.nodes := by
  induction path with
  | nil => exact fun _ member => by cases member
  | cons step _ ih =>
    obtain ⟨spans, minted⟩ := step.rows
    refine List.forall_mem_cons.mpr ⟨⟨spans, minted⟩, fun d member => ?_⟩
    obtain ⟨spans', minted'⟩ := ih d member
    exact ⟨spans ++ spans', by rw [minted', minted, List.foldl_append]⟩

private theorem passes_checkAll {p q : Program} {table : NodeTable}
    (assigned : p.assignIds = .ok (q, table)) (policy : Policy) :
    ({ nodes := table } : Checker).Passes (Steps.checkAll policy q) fun _ _ => True := by
  have numbered := Program.numbered_of_assignIds assigned
  have adding := adding_checkProgram numbered (Program.nodup_handles_of_assignIds assigned)
  have whole := passes_checkProgram numbered (tabled_start table) (Nat.le_refl _)
  refine (whole.and adding).bind fun _ c grows ends => passes_finish policy grows.tabled ?_
  exact fun a member => (ends.2.1.valid.waiting a member).1.lt_size

end Checker

private theorem exists_of_check_eq_ok {policy : Policy} {q : Program} {table : NodeTable}
    {t : Typing} (accepted : check policy q table = .ok t) :
    ∃ c d, Checker.checkProgram q { nodes := table } = .ok () c ∧
      Checker.finish policy c = .ok t d := by
  rw [check_eq_answer] at accepted
  cases ran : (Checker.checkProgram q >>= fun _ => Checker.finish policy) { nodes := table } with
  | ok t' d =>
    rw [ran] at accepted
    cases accepted
    obtain ⟨_, c, checked, finished⟩ := Checker.exists_of_bind_eq_ok ran
    exact ⟨c, d, checked, finished⟩
  | error e d =>
    rw [ran] at accepted
    cases accepted

/-- Minted handles are new and the table is only extended. A check of a numbered program goes from
point to point by single steps. At every point the table is the one at the start with rows for
minted handles after it, and it has a row for each handle in the store and each return slot, so the
next handle to be minted is in use nowhere. A program that is accepted has had one minted for each
function and then one for each null node, with their places, and its typed nodes are the parts of
the program that have a type. -/
theorem check_extends_table {p q : Program} {table : NodeTable}
    (assigned : p.assignIds = .ok (q, table)) (policy : Policy) :
    Checker.Path { nodes := table } ((Checker.Steps.checkAll policy q).points { nodes := table })
      (Checker.after (Checker.checkAll policy q) { nodes := table }) ∧
    (∀ d ∈ { nodes := table } :: (Checker.Steps.checkAll policy q).points { nodes := table },
      (∃ spans : List Span, d.nodes = spans.foldl NodeTable.mint table) ∧
      (∀ h, d.store.Mentions h → h < d.nodes.size) ∧
      (∀ f slot : Handle, d.returns[f]? = some slot → slot < d.nodes.size) ∧
      ¬ d.store.Mentions d.nodes.next) ∧
    ∀ t, check policy q table = .ok t →
      t.nodes.rows.toList = table.rows.toList ++ (q.functions.map (·.mark.span) ++
        (q.parts.filter (·.kind = .null)).map (·.mark.span)).map .minted ∧
      t.typed = (q.parts.filter Part.isValue).map (·.mark.handle) ∧ t.typed.Pairwise (· < ·) := by
  have path := (Checker.Steps.checkAll policy q).path { nodes := table }
  refine ⟨path, fun d member => ?_, fun t accepted => ?_⟩
  · have tabled : d.Tabled := by
      rcases List.mem_cons.mp member with rfl | later
      · exact Checker.tabled_start table
      · exact ((Checker.passes_checkAll assigned policy).1 d later).tabled
    have below {h : Handle} (mentioned : d.store.Mentions h) : h < d.nodes.size :=
      tabled.store.of_mentions mentioned
    refine ⟨?_, fun h => below, tabled.returns, fun mentioned => ?_⟩
    · rcases List.mem_cons.mp member with rfl | later
      · exact ⟨[], rfl⟩
      · exact path.rows d later
    · exact Nat.lt_irrefl _ (below mentioned)
  · obtain ⟨c, d, checked, finished⟩ := exists_of_check_eq_ok accepted
    have minting := Checker.minting_checkProgram (Program.numbered_of_assignIds assigned)
      (Program.nodup_handles_of_assignIds assigned)
    have nodes := (Checker.nodes_of_finish finished).trans (minting.of_ok checked)
    refine ⟨?_, ?_, t.nodes.pairwise_typed⟩
    · rw [nodes, NodeTable.rows_foldl_mint, Program.nullSpans_nodes]
    · rw [Typing.typed, nodes, NodeTable.typed_foldl_mint, Program.typed_of_assignIds assigned]

/-- Two functions with a null node each: handles are minted for the functions of lines 1 and 3, and
then for the null nodes of lines 2 and 4. -/
theorem check_extends_table_nulls :
    let p : Program := .ofFunctions [
      { name := "main", mark := { span := { line := 1 } }, body := [
        .ret {} (.deref {} (.call {} (.var {} "id") [
          .access {} (.record {} [({ name := "of" }, .null { span := { line := 2 } })]) "of"]))] },
      { name := "id", mark := { span := { line := 3 } }, formals := [{ name := "x" }], body := [
        .loop {} (.binary {} .eq (.var {} "x") (.null { span := { line := 4 } })) (.block {} []),
        .ret {} (.var {} "x")] }]
    ∃ t, check .defaultToInt p.number p.table = .ok t ∧
      t.nodes.rows.toList = p.table.rows.toList ++ [.minted { line := 1 }, .minted { line := 3 },
        .minted { line := 2 }, .minted { line := 4 }] ∧
      t.typed = [1, 3, 4, 5, 6, 7, 8, 9, 10, 11, 13, 14, 15, 18] ∧
      ∀ d ∈ (Checker.Steps.checkAll .defaultToInt p.number).points { nodes := p.table },
        ¬ d.store.Mentions d.nodes.next := by
  intro p
  have accepted : (check .defaultToInt p.number p.table).toOption.isSome := by decide +kernel
  have nulls : (p.number.parts.filter (·.kind = .null)).map (·.mark.span) =
      [{ line := 2 }, { line := 4 }] := by
    rw [← Program.nullSpans_nodes]
    decide +kernel
  have values : (p.number.parts.filter Part.isValue).map (·.mark.handle) =
      [1, 3, 4, 5, 6, 7, 8, 9, 10, 11, 13, 14, 15, 18] := by
    rw [← Program.typed_of_assignIds (p := p) rfl]
    decide +kernel
  obtain ⟨-, points, answers⟩ := check_extends_table (p := p) rfl .defaultToInt
  cases outcome : check .defaultToInt p.number p.table with
  | error e =>
    rw [outcome] at accepted
    cases accepted
  | ok t =>
    obtain ⟨rows, typed, -⟩ := answers t outcome
    rw [nulls] at rows
    exact ⟨t, rfl, rows, typed.trans values, fun d member =>
      (points d (List.mem_cons_of_mem _ member)).2.2.2⟩

end TypeInference
