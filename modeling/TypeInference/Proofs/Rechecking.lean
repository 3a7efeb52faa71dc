import TypeInference.Proofs.FixedPoint
import TypeInference.Proofs.Freshness
import TypeInference.Proofs.Minting
import TypeInference.Proofs.Repetition

/-!
# Checking again

Each constraint comes down to one call on the store, chosen by what is known at the time. A list of
constraints that was solved with no access put off leaves a store that has what each of them asks
for. Solved again they find it there. Only a null node mints another handle, which joins the class
that the pointer of the node points to and never becomes its root, as it is the highest of all.
-/

set_option autoImplicit false

namespace TypeInference

namespace Constraint

/-- The call that a constraint comes down to, if it is not put off or refused out of hand. -/
def call? (c : Checker) : Constraint → Option Call
  | bind node term _ => some (.bind node term)
  | unify left right _ => some (.unify left right)
  | call callee args result _ => some (.bind callee (.function args result))
  | deref pointer target _ => some (.bind pointer (.pointer target))
  | null node _ => some (.bind node (.pointer c.nodes.size))
  | access a =>
    (c.store.term? a.record).bind fun known =>
      (known.field? a.field).map fun field => .unify a.node field
  | repeatedField .. | reject _ => none

/-- The store has what the constraint asks for. -/
def Granted (s : Store) : Constraint → Prop
  | bind node term _ => s.Agrees node term
  | unify left right _ => s.sameClass left right
  | call callee args result _ => s.Agrees callee (.function args result)
  | deref pointer target _ => s.Agrees pointer (.pointer target)
  | null node _ => ∃ target, s.term? node = some (.pointer target)
  | access a => s.Provides a
  | repeatedField .. | reject _ => False

variable {con : Constraint} {c : Checker} {call : Call} {s s' : Store}

private theorem call?_access_eq_some {a : Access} (wanted : (access a).call? c = some call) :
    ∃ known field, c.store.term? a.record = some known ∧ known.field? a.field = some field ∧
      call = .unify a.node field := by
  obtain ⟨known, bound, inside⟩ := Option.bind_eq_some_iff.mp wanted
  obtain ⟨field, found, rfl⟩ := Option.map_eq_some_iff.mp inside
  exact ⟨known, field, bound, found, rfl⟩

private theorem distinctNames_call (distinct : con.DistinctNames)
    (wanted : con.call? c = some call) : call.DistinctNames := by
  cases con with
  | bind node term span =>
    cases wanted
    exact distinct
  | unify | call | deref | null =>
    cases wanted
    trivial
  | access a =>
    obtain ⟨known, field, -, -, rfl⟩ := call?_access_eq_some wanted
    trivial
  | repeatedField | reject => cases wanted

private theorem Granted.possible (granted : con.Granted s) : ¬ con.Impossible := by
  cases con with
  | repeatedField | reject => exact granted.elim
  | bind | unify | call | deref | null | access => exact id

private theorem Granted.run (granted : con.Granted s) (sound : s.Sound)
    (distinct : con.DistinctNames) (accepted : (call.run s).conflict? = none) :
    con.Granted (call.run s).store := by
  cases con with
  | bind node term span => exact Store.Agrees.run granted sound distinct accepted
  | unify left right span => exact (Store.extends_call sound call).classes _ _ granted
  | call callee args result span => exact Store.Agrees.run granted sound trivial accepted
  | deref pointer target span => exact Store.Agrees.run granted sound trivial accepted
  | null node span =>
    obtain ⟨target, bound⟩ := granted
    exact ((Store.agrees_of_term? bound).run sound trivial accepted).exists_pointer
  | access a =>
    obtain ⟨fields, field, bound, found, same⟩ := granted
    have kept := (Store.agrees_of_term? bound).run sound (sound.distinct_term? bound) accepted
    exact kept.provides found ((Store.extends_call sound call).classes _ _ same)
  | repeatedField | reject => exact granted

private theorem Granted.sameBelow {n : Nat} (granted : con.Granted s)
    (same : Store.SameBelow n s s') (uses : s.Over (· < n)) (covered : con.Over (· < n)) :
    con.Granted s' := by
  cases con with
  | bind node term span => exact same.agrees uses covered.1 covered.2 granted
  | unify left right span => exact same.sameClass covered.1 covered.2 granted
  | call callee args result span =>
    refine same.agrees uses covered.1 ?_ granted
    exact List.forall_mem_append.mpr ⟨covered.2.1, List.forall_mem_singleton.mpr covered.2.2⟩
  | deref pointer target span =>
    exact same.agrees uses covered.1 (List.forall_mem_singleton.mpr covered.2) granted
  | null node span =>
    obtain ⟨target, bound⟩ := granted
    exact ⟨target, (same.term? node covered).trans bound⟩
  | access a =>
    obtain ⟨fields, field, bound, found, joined⟩ := granted
    have row : field < n :=
      uses.children bound (List.mem_map_of_mem (f := Prod.snd) (mem_of_lookup found))
    exact ⟨fields, field, (same.term? _ covered.2).trans bound, found,
      same.sameClass covered.1 row joined⟩
  | repeatedField | reject => exact granted

private theorem Granted.exists_call (granted : con.Granted c.store) (plain : con.mints = []) :
    ∃ call, con.call? c = some call ∧ call.Done c.store := by
  cases con with
  | bind | unify | call | deref => exact ⟨_, rfl, granted⟩
  | null node span => cases plain
  | access a =>
    obtain ⟨fields, field, bound, found, joined⟩ := granted
    exact ⟨.unify a.node field, by simp [call?, bound, Term.field?, found], joined⟩
  | repeatedField | reject => exact granted.elim

end Constraint

namespace Checker

variable {c c' c'' : Checker} {con : Constraint} {call : Call} {span : Span}

/-! ### One constraint -/

private theorem accepted_of_absorb {work : Store → Report} (ran : absorb span work c = .ok () c') :
    (work c.store).conflict? = none := by
  rw [absorb] at ran
  cases outcome : (work c.store).conflict? with
  | none => rfl
  | some conflict =>
    rw [outcome] at ran
    cases ran

private theorem refused_of_unpaired {s : Store} {x : Handle} {t known : Term}
    (bound : s.term? x = some known) (unpaired : ∀ parts, known.pairUp t ≠ .ok parts) :
    (s.bind x t).conflict? ≠ none := by
  intro accepted
  rcases Store.bind_of_accepted accepted with ⟨unbound, -⟩ | ⟨u, parts, bound', paired, -⟩
  · rw [bound] at unbound
    cases unbound
  · obtain rfl := Option.some.inj (bound.symm.trans bound')
    exact unpaired parts paired

private theorem solveCall_cases (c : Checker) (callee : Handle) (args : List Handle)
    (result : Handle) (span : Span) :
    solveCall callee args result span c = bindAt span callee (.function args result) c ∨
      (∃ e d, solveCall callee args result span c = .error e d) ∧
        (c.store.bind callee (.function args result)).conflict? ≠ none := by
  rw [solveCall, get_bind_apply]
  cases bound : c.store.term? callee with
  | none => exact .inl rfl
  | some known =>
    cases known with
    | function params result' =>
      by_cases arity : params.length = args.length
      · simp only [if_pos arity]
        exact .inl trivial
      · simp only [if_neg arity]
        refine .inr ⟨⟨_, _, rfl⟩, refused_of_unpaired bound fun parts paired => ?_⟩
        simp [Term.pairUp, arity] at paired
    | int | pointer _ | record _ =>
      exact .inr ⟨⟨_, _, rfl⟩, refused_of_unpaired bound fun parts paired => by cases paired⟩

private theorem solveDeref_cases (c : Checker) (pointer target : Handle) (span : Span) :
    solveDeref pointer target span c = bindAt span pointer (.pointer target) c ∨
      (∃ e d, solveDeref pointer target span c = .error e d) ∧
        (c.store.bind pointer (.pointer target)).conflict? ≠ none := by
  rw [solveDeref, get_bind_apply]
  cases bound : c.store.term? pointer with
  | none => exact .inl rfl
  | some known =>
    cases known with
    | pointer target' => exact .inl rfl
    | int | function _ _ | record _ =>
      exact .inr ⟨⟨_, _, rfl⟩, refused_of_unpaired bound fun parts paired => by cases paired⟩

private theorem solve_of_call (wanted : con.call? c = some call) :
    (∃ span, solve con c =
        absorb span call.run { c with nodes := con.mints.foldl NodeTable.mint c.nodes }) ∨
      (∃ e d, solve con c = .error e d) ∧ (call.run c.store).conflict? ≠ none := by
  cases con with
  | bind node term span | unify left right span | null node span =>
    cases wanted
    exact .inl ⟨span, rfl⟩
  | call callee args result span =>
    cases wanted
    exact (solveCall_cases c callee args result span).imp_left fun same => ⟨span, same⟩
  | deref pointer target span =>
    cases wanted
    exact (solveDeref_cases c pointer target span).imp_left fun same => ⟨span, same⟩
  | access a =>
    obtain ⟨known, field, bound, found, rfl⟩ := Constraint.call?_access_eq_some wanted
    refine .inl ⟨a.span, ?_⟩
    rw [solve, get_bind_apply, bound]
    exact solveAccess_of_field found
  | repeatedField | reject => cases wanted

private theorem solve_of_no_call (idle : con.call? c = none) :
    (∃ a, con = .access a ∧ solve con c = .ok () { c with waiting := c.waiting ++ [a] }) ∨
      ∃ e d, solve con c = .error e d := by
  cases con with
  | bind | unify | call | deref | null => cases idle
  | access a =>
    rw [solve, get_bind_apply]
    cases bound : c.store.term? a.record with
    | none => exact .inl ⟨a, rfl, rfl⟩
    | some known =>
      have missing : known.field? a.field = none := by
        simpa [Constraint.call?, bound] using idle
      obtain ⟨conflict, d, failed⟩ := solveAccess_of_missing (c := c) missing
      exact .inr ⟨_, d, failed⟩
  | repeatedField | reject => exact .inr ⟨_, _, rfl⟩

/-- A call has been made for a constraint, with success. -/
structure Makes (c : Checker) (con : Constraint) (call : Call) (c' : Checker) : Prop where
  accepted : (call.run c.store).conflict? = none
  store : c'.store = (call.run c.store).store
  waiting : c'.waiting = c.waiting
  names : c.SameNames c'
  nodes : c'.nodes = con.mints.foldl NodeTable.mint c.nodes

private theorem exists_makes (wanted : con.call? c = some call)
    (accepted : (call.run c.store).conflict? = none) :
    ∃ c', solve con c = .ok () c' ∧ c.Makes con call c' := by
  rcases solve_of_call wanted with ⟨span, ran⟩ | ⟨-, refused⟩
  · let minted : Checker := { c with nodes := con.mints.foldl NodeTable.mint c.nodes }
    have absorbed := absorb_of_accepted (c := minted) span call.run accepted
    exact ⟨_, ran.trans absorbed, accepted, rfl, rfl, ⟨rfl, rfl, rfl⟩, rfl⟩
  · exact absurd accepted refused

/-- A constraint that is solved has made its call, or is an access that is put off. -/
theorem makes_of_solve (ran : solve con c = .ok () c') :
    (∃ a, con = .access a ∧ c' = { c with waiting := c.waiting ++ [a] }) ∨
      ∃ call, con.call? c = some call ∧ c.Makes con call c' := by
  cases wanted : con.call? c with
  | none =>
    rcases solve_of_no_call wanted with ⟨a, equal, ran'⟩ | ⟨e, d, failed⟩
    · rw [ran] at ran'
      cases ran'
      exact .inl ⟨a, equal, rfl⟩
    · rw [ran] at failed
      cases failed
  | some call =>
    have accepted : (call.run c.store).conflict? = none := by
      rcases solve_of_call wanted with ⟨span, ran'⟩ | ⟨⟨e, d, failed⟩, -⟩
      · rw [ran] at ran'
        exact accepted_of_absorb ran'.symm
      · rw [ran] at failed
        cases failed
    obtain ⟨d, ran', makes⟩ := exists_makes wanted accepted
    rw [ran] at ran'
    cases ran'
    exact .inr ⟨call, rfl, makes⟩

private theorem Makes.granted (makes : c.Makes con call c') (wanted : con.call? c = some call)
    (sound : c.store.Sound) : con.Granted c'.store := by
  have done := Call.done_run sound makes.accepted
  rw [makes.store]
  cases con with
  | bind | unify | call | deref =>
    cases wanted
    exact done
  | null node span =>
    cases wanted
    exact Store.Agrees.exists_pointer done
  | access a =>
    obtain ⟨known, field, bound, found, rfl⟩ := Constraint.call?_access_eq_some wanted
    have kept := (Store.agrees_of_term? bound).run sound (sound.distinct_term? bound)
      makes.accepted
    exact kept.provides found done
  | repeatedField | reject => cases wanted

/-! ### The first time -/

/-- What steps that succeed keep: the names, the accesses that wait and what constraints have asked
for. -/
structure Later (c c' : Checker) : Prop where
  built : c'.WellBuilt
  names : c.SameNames c'
  waiting : c.waiting <+: c'.waiting
  granted : ∀ con : Constraint, con.DistinctNames → con.Granted c.store → con.Granted c'.store

private theorem Later.refl (built : c.WellBuilt) : c.Later c :=
  ⟨built, .refl c, List.prefix_refl _, fun _ _ => id⟩

private theorem Later.trans (first : c.Later c') (second : c'.Later c'') : c.Later c'' where
  built := second.built
  names := first.names.trans second.names
  waiting := first.waiting.trans second.waiting
  granted con distinct granted := second.granted con distinct (first.granted con distinct granted)

private theorem later_solve (built : c.WellBuilt) (distinct : con.DistinctNames)
    (ran : solve con c = .ok () c') : c.Later c' := by
  rcases makes_of_solve ran with ⟨a, -, rfl⟩ | ⟨call, wanted, makes⟩
  · exact ⟨built, ⟨rfl, rfl, rfl⟩, List.prefix_append _ _, fun _ _ => id⟩
  · refine ⟨?_, makes.names, makes.waiting ▸ List.prefix_refl _,
      fun other plain granted => ?_⟩
    · rw [WellBuilt, makes.store]
      exact Call.built_run built (Constraint.distinctNames_call distinct wanted)
    · rw [makes.store]
      exact granted.run built.sound plain makes.accepted

private theorem exists_of_solveAll_cons {rest : List Constraint}
    (orderly : Constraint.Orderly (con :: rest)) (ran : solveAll (con :: rest) c = .ok () c') :
    con.DistinctNames ∧ Constraint.Orderly rest ∧
      ∃ d, solve con c = .ok () d ∧ solveAll rest d = .ok () c' := by
  obtain ⟨⟨⟩, d, first, second⟩ := exists_of_bind_eq_ok ran
  obtain ⟨distinct, impossible | others⟩ := orderly
  · obtain ⟨e, d', failed⟩ := solve_eq_error_of_impossible (c := c) impossible
    rw [first] at failed
    cases failed
  · exact ⟨distinct, others, d, first, second⟩

private theorem later_solveAll {cs : List Constraint} (built : c.WellBuilt)
    (orderly : Constraint.Orderly cs) (ran : solveAll cs c = .ok () c') : c.Later c' := by
  induction cs generalizing c with
  | nil =>
    cases ran
    exact .refl built
  | cons con rest ih =>
    obtain ⟨distinct, others, d, first, second⟩ := exists_of_solveAll_cons orderly ran
    have step := later_solve built distinct first
    exact step.trans (ih step.built others second)

private theorem granted_of_solveAll {cs : List Constraint} (built : c.WellBuilt)
    (orderly : Constraint.Orderly cs) (ran : solveAll cs c = .ok () c')
    (waiting : c'.waiting = c.waiting) :
    ∀ con ∈ cs, con.DistinctNames ∧ con.Granted c'.store := by
  induction cs generalizing c with
  | nil => exact fun con member => by cases member
  | cons con rest ih =>
    obtain ⟨distinct, others, d, first, second⟩ := exists_of_solveAll_cons orderly ran
    have step := later_solve built distinct first
    have rest' := later_solveAll step.built others second
    rcases makes_of_solve first with ⟨a, -, rfl⟩ | ⟨call, wanted, makes⟩
    · -- The access that was put off is still there at the end.
      have longer := rest'.waiting.length_le
      rw [waiting, List.length_append, List.length_singleton] at longer
      omega
    · refine List.forall_mem_cons.mpr ⟨⟨distinct, ?_⟩, ?_⟩
      · exact rest'.granted con distinct (makes.granted wanted built.sound)
      · exact ih step.built others second (waiting.trans makes.waiting.symm)

/-! ### The second time -/

/-- Nothing has changed for the handles that the table had, no access has been put off, and the
table has a new row for each of the places. -/
structure Unchanged (c : Checker) (spans : List Span) (c' : Checker) : Prop where
  store : Store.SameBelow c.nodes.size c.store c'.store
  waiting : c'.waiting = c.waiting
  names : c.SameNames c'
  nodes : c'.nodes = spans.foldl NodeTable.mint c.nodes

private theorem solve_of_granted (built : c.WellBuilt) (tabled : c.Tabled)
    (covered : con.Over (· < c.nodes.size)) (distinct : con.DistinctNames)
    (granted : con.Granted c.store) :
    ∃ c', solve con c = .ok () c' ∧ c.Unchanged con.mints c' := by
  by_cases plain : con.mints = []
  · obtain ⟨call, wanted, done⟩ := granted.exists_call plain
    have repeated := Call.run_of_done built.sound
      (Constraint.distinctNames_call distinct wanted) done
    obtain ⟨c', ran, makes⟩ := exists_makes wanted (by rw [repeated])
    have store : c'.store = c.store := makes.store.trans (by rw [repeated])
    exact ⟨c', ran, store ▸ .refl _ _, makes.waiting, makes.names, makes.nodes⟩
  · cases con with
    | null node span =>
      obtain ⟨target, bound⟩ := granted
      obtain ⟨accepted, linked⟩ := Store.bind_pointer_new tabled.store tabled.formed.rooted covered
        bound
      have wanted : (Constraint.null node span).call? c =
          some (.bind node (.pointer c.nodes.size)) := rfl
      obtain ⟨c', ran, makes⟩ := exists_makes wanted accepted
      have row : target < c.nodes.size :=
        tabled.store.children bound (List.mem_singleton_self target)
      have store : c'.store = c.store.link c.nodes.size (c.store.find target) :=
        makes.store.trans linked
      refine ⟨c', ran, ?_, makes.waiting, makes.names, makes.nodes⟩
      rw [store]
      exact Store.sameBelow_link tabled.store tabled.formed.rooted (tabled.formed.rooted target)
        (tabled.store.find row)
    | bind | unify | call | deref | access | repeatedField | reject => exact absurd rfl plain

private theorem solveAll_of_granted {cs : List Constraint} (built : c.WellBuilt) (tabled : c.Tabled)
    (covered : ∀ con ∈ cs, con.Over (· < c.nodes.size))
    (granted : ∀ con ∈ cs, con.DistinctNames ∧ con.Granted c.store) :
    ∃ c', solveAll cs c = .ok () c' ∧ c.Unchanged (cs.flatMap Constraint.mints) c' := by
  induction cs generalizing c with
  | nil => exact ⟨c, rfl, .refl _ _, rfl, .refl c, rfl⟩
  | cons con rest ih =>
    obtain ⟨⟨distinct, first⟩, others⟩ := List.forall_mem_cons.mp granted
    obtain ⟨inTable, restInTable⟩ := List.forall_mem_cons.mp covered
    obtain ⟨d, ran, unchanged⟩ := solve_of_granted built tabled inTable distinct first
    have later := later_solve built distinct ran
    have grows := ((passes_solve tabled inTable).2.of_ok ran).1
    obtain ⟨c', ran', unchanged'⟩ := ih later.built grows.tabled
      (fun other member => (restInTable other member).mono fun h below =>
        below.trans_le grows.size_le)
      (fun other member => ⟨(others other member).1, (others other member).2.sameBelow
        unchanged.store tabled.store (restInTable other member)⟩)
    refine ⟨c', (bind_apply_ok ran).trans ran', ?_, ?_, ?_, ?_⟩
    · exact unchanged.store.trans grows.size_le unchanged'.store
    · exact unchanged'.waiting.trans unchanged.waiting
    · exact unchanged.names.trans unchanged'.names
    · rw [unchanged'.nodes, unchanged.nodes, List.flatMap_cons, List.foldl_append]

private theorem solveAll_again (constraints : Env → List Constraint) (built : c.WellBuilt)
    (orderly : Constraint.Orderly (constraints c.env))
    (ran : solveAll (constraints c.env) c = .ok () c') (waiting : c'.waiting = c.waiting)
    (tabled : c'.Tabled) (covered : ∀ con ∈ constraints c'.env, con.Over (· < c'.nodes.size)) :
    (∀ con ∈ constraints c.env, ¬ con.Impossible) ∧ ∃ c'',
      solveAll (constraints c'.env) c' = .ok () c'' ∧
        c'.Unchanged ((constraints c.env).flatMap Constraint.mints) c'' := by
  have later := later_solveAll built orderly ran
  have granted := granted_of_solveAll built orderly ran waiting
  have env : c'.env = c.env := by
    unfold Checker.env
    rw [later.names.functions, later.names.scope]
  rw [env] at covered ⊢
  refine ⟨fun con member => (granted con member).2.possible, ?_⟩
  exact solveAll_of_granted later.built tabled covered granted

end Checker

open Checker in
/-- Checking a statement or an expression again changes nothing, if no access was put off the first
time. It succeeds again, puts no access off, and leaves the root and the term of every handle that
was in the table. The table gets a row for each null node and no other. -/
theorem recheck_unchanged {p q : Program} {table : NodeTable} {c : Checker}
    (assigned : p.assignIds = .ok (q, table))
    (driven : Driven q table (fun c h => h < c.nodes.size) c) :
    (∀ s result c₁, .stmt s ∈ q.parts → result < c.nodes.size →
      checkStmt result s c = .ok () c₁ → c₁.waiting = c.waiting →
        ∃ c₂, checkStmt result s c₁ = .ok () c₂ ∧ c₁.Unchanged (nullSpans s.nodes) c₂) ∧
    ∀ e h c₁, .expr e ∈ q.parts → checkExpr e c = .ok h c₁ → c₁.waiting = c.waiting →
      ∃ c₂, checkExpr e c₁ = .ok h c₂ ∧ c₁.Unchanged (nullSpans e.nodes) c₂ := by
  have numbered := Program.numbered_of_assignIds assigned
  have parts : ∀ a ∈ q.parts, Numbered table a.nodes := fun a own n member =>
    numbered n (Part.nodes_subset_of_mem_preorder own member)
  obtain ⟨inTable, tabled⟩ := driven.tabled numbered
  constructor
  · intro s result c₁ own slot ran waiting
    have part : Numbered table s.nodes := parts (.stmt s) own
    have grows := ((passes_checkStmt tabled slot (part.typedIn_below inTable)).2.of_ok ran).1
    have below : TypedIn (· < c₁.nodes.size) s.nodes :=
      part.typedIn_below (inTable.trans grows.size_le)
    have covered := grows.tabled.over_stmt (slot.trans_le grows.size_le) below
    obtain ⟨possible, c₂, again, unchanged⟩ := solveAll_again (s.constraints · result)
      driven.wellBuilt Stmt.orderly_constraints ran waiting grows.tabled covered
    rw [Stmt.mints_constraints part possible] at unchanged
    exact ⟨c₂, again, unchanged⟩
  · intro e h c₁ own ran waiting
    have part : Numbered table e.nodes := parts (.expr e) own
    have grows := ((passes_checkExpr tabled (part.typedIn_below inTable)).2.of_ok ran).1
    have below : TypedIn (· < c₁.nodes.size) e.nodes :=
      part.typedIn_below (inTable.trans grows.size_le)
    rw [checkExpr, get_bind_apply] at ran
    obtain ⟨⟨⟩, d, solved, given⟩ := exists_of_bind_eq_ok ran
    cases given
    have covered := grows.tabled.over_expr below
    obtain ⟨possible, c₂, again, unchanged⟩ := solveAll_again (e.constraints ·)
      driven.wellBuilt Expr.orderly_constraints solved waiting grows.tabled covered
    rw [Expr.mints_constraints part possible] at unchanged
    exact ⟨c₂, bind_apply_ok again, unchanged⟩

/-- A null node inside a record whose field is read at once. The second handle that is minted for it
joins the class of the first. -/
theorem recheck_unchanged_null :
    let s (m : Nat → Mark) : Stmt := .assign (m 4) (.var (m 5) "x")
      (.access (m 6) (.record (m 7) [({ name := "f", mark := m 8 }, .null (m 9))]) "f")
    let f (m : Nat → Mark) : Function := { name := "main", mark := m 1, body := [
      .declare (m 2) [{ name := "x", mark := m 3 }], s m] }
    let p (m : Nat → Mark) : Program := { mark := m 0, functions := [f m] }
    let ids (k : Nat) : Mark := { id := some k }
    (p fun _ => {}).assignIds = .ok (p ids, (p fun _ => {}).table) ∧
      .stmt (s ids) ∈ (p ids).parts ∧ nullSpans (s ids).nodes = [{}] ∧
      ∃ c c₁ c₂, Driven (p ids) (p fun _ => {}).table (fun c h => h < c.nodes.size) c ∧
        10 < c.nodes.size ∧ Checker.checkStmt 10 (s ids) c = .ok () c₁ ∧
        c₁.waiting = c.waiting ∧ Checker.checkStmt 10 (s ids) c₁ = .ok () c₂ ∧
        c₁.Unchanged [{}] c₂ ∧ c₁.nodes.size = 12 ∧ c₂.nodes.size = 13 ∧
        c₁.store.term? 3 = some (.pointer 11) ∧ c₂.store.find 12 = 11 := by
  intro s f p ids
  have assigned : (p fun _ => {}).assignIds = .ok (p ids, (p fun _ => {}).table) := rfl
  have ownFunction : (Entry.enterFunction (f ids)).part ∈ (p ids).parts :=
    Part.mem_preorder_of_child (Part.self_mem_preorder _) List.mem_cons_self
  have own : .stmt (s ids) ∈ (p ids).parts :=
    Part.mem_preorder_of_child ownFunction (List.mem_cons_of_mem _ List.mem_cons_self)
  have outcome : (do
      let slot ← Checker.enterFunction (f ids)
      let c ← get
      Checker.checkStmt slot (s ids)
      let c₁ ← get
      Checker.checkStmt slot (s ids)
      let c₂ ← get
      return ((slot, c.nodes.size, c.waiting.length, c₁.waiting.length), c₁.nodes.size,
        c₂.nodes.size, c₁.store.term? 3, c₂.store.find 12) : CheckM _).run'
          { nodes := (p fun _ => {}).table } =
        some ((10, 11, 0, 0), 12, 13, some (.pointer 11), 11) := by decide +kernel
  obtain ⟨slot, c, entered, outcome⟩ := Checker.exists_of_bind outcome
  obtain ⟨_, _, ⟨⟩, outcome⟩ := Checker.exists_of_bind outcome
  obtain ⟨_, c₁, first, outcome⟩ := Checker.exists_of_bind outcome
  obtain ⟨_, _, ⟨⟩, outcome⟩ := Checker.exists_of_bind outcome
  obtain ⟨_, c₂, second, outcome⟩ := Checker.exists_of_bind outcome
  obtain ⟨_, _, ⟨⟩, outcome⟩ := Checker.exists_of_bind outcome
  obtain ⟨⟨rfl, size, idle, idle₁⟩, size₁, size₂, bound, joined⟩ :
      (slot = 10 ∧ c.nodes.size = 11 ∧ c.waiting = [] ∧ c₁.waiting = []) ∧ c₁.nodes.size = 12 ∧
        c₂.nodes.size = 13 ∧ c₁.store.term? 3 = some (.pointer 11) ∧ c₂.store.find 12 = 11 := by
    simpa using Option.some.inj outcome
  have driven : Driven (p ids) (p fun _ => {}).table (fun c h => h < c.nodes.size) c := by
    have fresh : Driven (p ids) (p fun _ => {}).table (fun c h => h < c.nodes.size)
        { nodes := (p fun _ => {}).table } := .start
    have called := fresh.call ownFunction trivial
    rwa [Checker.after, Entry.run, Checker.discard_eq, Checker.bind_apply_ok entered] at called
  have slotRow : 10 < c.nodes.size := by
    rw [size]
    decide
  have waiting : c₁.waiting = c.waiting := idle₁.trans idle.symm
  obtain ⟨c₂', again, unchanged⟩ :=
    (recheck_unchanged assigned driven).1 (s ids) 10 c₁ own slotRow first waiting
  rw [second] at again
  cases again
  exact ⟨assigned, own, rfl, c, c₁, c₂, driven, slotRow, first, waiting, second, unchanged, size₁,
    size₂, bound, joined⟩

end TypeInference
