import TypeInference.Proofs.FunctionOrder

/-!
# Errors about names

Going through a program step by step, every step either finds what it has seen well scoped or ends
with an error, and an error about a name is about a fault that is there.
-/

set_option autoImplicit false

namespace TypeInference

namespace Checker

variable {table : NodeTable} {q : Program} {f : Function} {c : Checker}

private theorem ending_solve (con : Constraint) :
    c.Ending (solve con) (fun _ _ => ¬ con.Impossible) fun e _ =>
      e.isMismatch ∨ con = .reject e := by
  cases con with
  | access a =>
    refine ending_get ?_
    cases known : c.store.term? a.record with
    | none => exact id
    | some term => exact (direct_solveAccess a term).ending.imp (fun _ _ _ => id) fun _ _ => .inl
  | reject fault => exact .inr rfl
  | repeatedField record field name span => exact .inl rfl
  | bind | unify | call | deref | null =>
    refine Ending.imp (Direct.ending (direct_solve ?_ ?_)) (fun _ _ _ => id) fun _ _ => .inl
    · exact fun _ equal => by cases equal
    · trivial

/-- Constraints that are solved are possible, and only a fault of the tree ends otherwise than in a
conflict. -/
theorem ending_solveAll (cs : List Constraint) :
    c.Ending (solveAll cs) (fun _ _ => ∀ con ∈ cs, ¬ con.Impossible) fun e _ =>
      e.isMismatch ∨ .reject e ∈ cs := by
  induction cs generalizing c with
  | nil => exact fun _ member => (by cases member)
  | cons con rest ih =>
    have first : c.Ending (solve con) (fun _ _ => ¬ con.Impossible) fun e _ =>
        e.isMismatch ∨ .reject e ∈ con :: rest := by
      refine (ending_solve con).imp (fun _ _ => id) ?_
      rintro e _ (mismatch | rfl)
      · exact .inl mismatch
      · exact .inr List.mem_cons_self
    refine first.bind fun _ c' possible => ih.imp ?_ ?_
    · exact fun _ _ others => List.forall_mem_cons.mpr ⟨possible, others⟩
    · exact fun e _ ends => ends.imp_right fun later => List.mem_cons_of_mem con later

private theorem misnames_of_misses (numbered : Numbered table q.nodes) (member : f ∈ q.functions)
    {s : Stmt} (inside : s ∈ f.body) {e : TypeError} (misses : (q.env f).Misses s.nodes e) :
    q.Misnames e := by
  obtain ⟨n, inStmt, name, refers, unknown, rfl⟩ := misses
  have inFunction := Function.nodes_subset_of_mem inside inStmt
  obtain ⟨a, inParts, rfl⟩ := Function.mem_nodes_iff.mp inFunction
  have undeclared : ¬ (name ∈ f.bindings.map (·.name) ∨ name ∈ q.functions.map (·.name)) := by
    rw [f.bindings_eq, ← Program.exists_env_iff numbered member, unknown]
    simp
  have marked : a.mark = { id := some a.node.handle, span := a.node.span } := by
    obtain ⟨h, carried, -⟩ := numbered.function member _ inFunction
    rw [Node.handle, carried, Option.getD_some, ← carried]
    rfl
  rw [Part.reference?_node] at refers
  exact ⟨f, member, a, inParts, refers, marked, not_or.mp undeclared⟩

private theorem ending_checkStmt (numbered : Numbered table q.nodes) (member : f ∈ q.functions)
    {slot : Handle} (entered : Entered table q f slot c) {s : Stmt} (inside : s ∈ f.body) :
    c.Ending (checkStmt slot s)
      (fun _ c' => (q.env f).Knows s.nodes ∧ Entered table q f slot c')
      fun e _ => e.isMismatch ∨ q.Misnames e := by
  have own := (numbered.function member).stmt inside
  have names : c.Ending (checkStmt slot s) (fun _ _ => (q.env f).Knows s.nodes)
      fun e _ => e.isMismatch ∨ q.Misnames e := by
    rw [checkStmt]
    refine ending_get ?_
    rw [entered.visible]
    refine (ending_solveAll (s.constraints (q.env f) slot)).imp
      (fun _ _ possible => Stmt.knows_of_possible own possible) fun e _ ends => ?_
    exact ends.imp_right fun fault =>
      misnames_of_misses numbered member inside (Stmt.misses_of_reject own fault)
  exact (names.and (adding_checkStmt numbered member entered inside)).post fun _ _ ends =>
    ⟨ends.1, ends.2.2⟩

private theorem ending_checkFunction (numbered : Numbered table q.nodes) (member : f ∈ q.functions)
    (declared : Declared table q.functions c) :
    c.Ending (checkFunction f) (fun _ c' => ((f.bindings.map (·.name)).Nodup ∧
      (q.env f).Knows f.nodes) ∧ Declared table q.functions c')
      fun e _ => e.isMismatch ∨ q.Misnames e := by
  refine Ending.bind ((ending_enterFunction declared member (numbered.function member)).imp
    (fun _ _ => id) fun _ _ repeats => .inr (repeats.misnames member)) fun slot c₁ ends => ?_
  obtain ⟨-, entered, distinct⟩ := ends
  let I (done : List Stmt) (c' : Checker) : Prop :=
    (∀ s ∈ done, (q.env f).Knows s.nodes) ∧ Entered table q f slot c'
  have body : c₁.Ending (f.body.forM (checkStmt slot)) (fun _ c' => I f.body c')
      fun e _ => e.isMismatch ∨ q.Misnames e := by
    refine ending_forM (I := I) ?_ ⟨fun _ inside => (by cases inside), entered⟩
    rintro done s rest split c' ⟨known, entered'⟩
    refine (ending_checkStmt numbered member entered' (by simp [split])).post
      fun _ c'' ends => ⟨?_, ends.2⟩
    exact List.forall_mem_append.mpr ⟨known, List.forall_mem_singleton.mpr ends.1⟩
  rw [f.bindings_eq]
  exact body.post fun _ _ ends =>
    ⟨⟨distinct, Function.knows_of_body ends.1⟩, ends.2.declared⟩

private theorem ending_checkProgram (numbered : Numbered table q.nodes)
    (nodup : (q.functions.map (·.mark.handle)).Nodup) :
    ({ nodes := table } : Checker).Ending (checkProgram q)
      (fun _ c => q.WellScoped ∧ c.Valid) fun e _ => e.isMismatch ∨ q.Misnames e := by
  refine Ending.of_eq (Ending.bind (ending_declareFunctions numbered nodup) fun _ c₁ ends => ?_)
    (checkProgram_eq numbered)
  obtain ⟨distinct, declared, -⟩ := ends
  let I (done : List Function) (c' : Checker) : Prop :=
    (∀ f ∈ done, (f.bindings.map (·.name)).Nodup ∧ (q.env f).Knows f.nodes) ∧
      Declared table q.functions c'
  have bodies : c₁.Ending (q.functions.forM checkFunction) (fun _ c' => I q.functions c')
      fun e _ => e.isMismatch ∨ q.Misnames e := by
    refine ending_forM (I := I) ?_ ⟨fun _ inside => (by cases inside), declared⟩
    rintro done f rest split c' ⟨earlier, declared'⟩
    refine (ending_checkFunction numbered (by simp [split]) declared').post
      fun _ c'' ends => ⟨?_, ends.2⟩
    exact List.forall_mem_append.mpr ⟨earlier, List.forall_mem_singleton.mpr ends.1⟩
  refine bodies.post fun _ c' ends => ⟨?_, ends.2.valid⟩
  refine ⟨distinct, fun f member => (ends.1 f member).1, fun f member => ?_⟩
  rw [Function.forall_reference_iff]
  intro n inside name refers
  rw [f.bindings_eq, ← Program.exists_env_iff numbered member]
  exact (ends.1 f member).2 n inside name refers

private theorem exists_verdict_finish (policy : Policy) (valid : c.Valid) :
    ∃ v, verdict? (answer (finish policy c)) = some v := by
  rcases (ending_settleAll valid).cases with ⟨e, c', failed, fault⟩ |
    ⟨_, c', settled, settles, done⟩
  · rw [finish, bind_apply_error failed]
    rcases fault with ⟨mismatch, -⟩ | ⟨-, -, node, kind, type, span, rfl⟩
    · exact ⟨_, verdict?_of_mismatch mismatch⟩
    · exact ⟨_, rfl⟩
  · rcases (finishes_finish settles.valid settled).verdict done with
      ⟨unresolved, -⟩ | ⟨accepted, -⟩
    · exact ⟨_, unresolved⟩
    · exact ⟨_, accepted⟩

end Checker

/-- A check gives a verdict on the types of a well-scoped program, or an error about a name. -/
theorem check_cases {p q : Program} {table : NodeTable} (assigned : p.assignIds = .ok (q, table))
    (policy : Policy) :
    (∃ e, check policy q table = .error e ∧ (e.isMismatch ∨ q.Misnames e)) ∨
      q.WellScoped ∧ ∃ v, verdict? (check policy q table) = some v := by
  have numbered := Program.numbered_of_assignIds assigned
  have nodup := Program.nodup_handles_of_assignIds assigned
  rw [check_eq_answer]
  rcases (Checker.ending_checkProgram numbered nodup).cases with ⟨e, c, ran, fault⟩ |
    ⟨_, c, ran, wellScoped, valid⟩
  · rw [Checker.bind_apply_error ran]
    exact .inl ⟨e, rfl, fault⟩
  · rw [Checker.bind_apply_ok ran]
    exact .inr ⟨wellScoped, Checker.exists_verdict_finish policy valid⟩

/-- Errors about names are reported exactly for programs that are not well scoped. A well-scoped
program never meets one, any other program ends with some error, and a name that is reported as
declared twice or as unknown is so at the node that is reported. -/
theorem check_name_errors {p q : Program} {table : NodeTable}
    (assigned : p.assignIds = .ok (q, table)) (policy : Policy) :
    (q.WellScoped →
      (∀ name node span, check policy q table ≠ .error (.duplicateName name node span)) ∧
      (∀ name node span, check policy q table ≠ .error (.unboundName name node span)) ∧
      ∀ kind span, check policy q table ≠ .error (.unassigned kind span)) ∧
    (¬ q.WellScoped → ∃ e, check policy q table = .error e) ∧
    (∀ name node span, check policy q table = .error (.duplicateName name node span) →
      q.DeclaresTwice name { id := some node, span }) ∧
    ∀ name node span, check policy q table = .error (.unboundName name node span) →
      q.LacksName name { id := some node, span } := by
  have cases := check_cases assigned policy
  -- a verdict on types is no error about a name, and neither is a mismatch
  have misnames : ∀ e, check policy q table = .error e → verdict? (.error e) = none →
      q.Misnames e := by
    intro e failed undecided
    rw [failed] at cases
    rcases cases with ⟨_, ⟨⟩, mismatch | misnames⟩ | ⟨-, v, decided⟩
    · rw [verdict?_of_mismatch mismatch] at undecided
      cases undecided
    · exact misnames
    · rw [undecided] at decided
      cases decided
  refine ⟨fun wellScoped => ⟨?_, ?_, ?_⟩, ?_, ?_, ?_⟩
  · exact fun name node span failed => wellScoped.not_misnames (misnames _ failed rfl)
  · exact fun name node span failed => wellScoped.not_misnames (misnames _ failed rfl)
  · exact fun kind span failed => wellScoped.not_misnames (misnames _ failed rfl)
  · intro illScoped
    rcases cases with ⟨e, failed, -⟩ | ⟨wellScoped, -⟩
    · exact ⟨e, failed⟩
    · exact absurd wellScoped illScoped
  · exact fun name node span failed => misnames _ failed rfl
  · exact fun name node span failed => misnames _ failed rfl

/-- A local is declared in both branches of a condition; a local is used in a function that does not
declare it; and two functions each have their own local of one name. -/
theorem check_name_errors_locals :
    let twice : Program := .ofFunctions [
      { name := "main", formals := [{ name := "c" }], body := [
        .branch {} (.var {} "c") (.declare {} [{ name := "x" }])
          (some (.loop {} (.var {} "c")
            (.declare {} [{ name := "x", mark := { span := { line := 4 } } }])))] }]
    let foreign : Program := .ofFunctions [
      { name := "first", body := [.declare {} [{ name := "y" }]] },
      { name := "main", body := [.ret {} (.addrOf { span := { line := 9 } } "y")] }]
    let own : Program := .ofFunctions [
      { name := "first", body := [.declare {} [{ name := "y" }]] },
      { name := "main", body := [
        .ret {} (.addrOf {} "y"), .block {} [.declare {} [{ name := "y" }]]] }]
    (check .reject twice.number twice.table = .error (.duplicateName "x" 10 { line := 4 }) ∧
      twice.number.DeclaresTwice "x" { id := some 10, span := { line := 4 } } ∧
      ∃ e, check .defaultToInt twice.number twice.table = .error e) ∧
    (check .reject foreign.number foreign.table = .error (.unboundName "y" 6 { line := 9 }) ∧
      foreign.number.LacksName "y" { id := some 6, span := { line := 9 } }) ∧
    own.number.WellScoped ∧
      ∀ name node span, check .reject own.number own.table ≠
        .error (.unboundName name node span) := by
  intro twice foreign own
  have repeats : check .reject twice.number twice.table =
      .error (.duplicateName "x" 10 { line := 4 }) := by cbv
  have lacks : check .reject foreign.number foreign.table =
      .error (.unboundName "y" 6 { line := 9 }) := by cbv
  have declares := (check_name_errors (p := twice) rfl .reject).2.2.1 _ _ _ repeats
  have wellScoped : own.number.WellScoped := by decide +kernel
  refine ⟨⟨repeats, declares, ?_⟩, ⟨lacks, ?_⟩, wellScoped, ?_⟩
  · exact (check_name_errors (p := twice) rfl .defaultToInt).2.1 (by decide +kernel)
  · exact (check_name_errors (p := foreign) rfl .reject).2.2.2 _ _ _ lacks
  · exact ((check_name_errors (p := own) rfl .reject).1 wellScoped).2.1

end TypeInference
