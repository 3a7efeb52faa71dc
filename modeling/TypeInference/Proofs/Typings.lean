import TypeInference.Proofs.Finishing

/-!
# Checks and typings

A successful check gives types that obey every typing rule. A mismatch means that no assignment of
ground types does. When undetermined types are refused, success means that there is one typing
only, and an unresolved type that there is not exactly one.
-/

set_option autoImplicit false

namespace TypeInference

/-- The types obey the rules of the program, and no other types of its typed nodes do. -/
def Program.UniquelyTyped (q : Program) (τ : Assignment) : Prop :=
  q.WellTyped Ground.algebra τ ∧
    ∀ τ' : Assignment, q.WellTyped Ground.algebra τ' → TypedIn (fun h => τ' h = τ h) q.nodes

section Typings

variable {p q : Program} {table : NodeTable} {c : Checker} {σ τ : Assignment}

private theorem wellTyped_of_admits (gathers : Gathers table q c) (admits : c.Admits σ) :
    q.WellTyped Ground.algebra σ := (gathers.meets σ admits).2

private theorem exists_admits_of_wellTyped (gathers : Gathers table q c)
    (typed : q.WellTyped Ground.algebra τ) :
    ∃ σ, c.Admits σ ∧ ∀ h, table.IsTyped h → σ h = τ h := by
  obtain ⟨σ, admits, agree⟩ := gathers.extension τ (Checker.admits_start table τ) typed
  exact ⟨σ, admits, fun h isTyped => agree h isTyped.lt_size⟩

private theorem Program.UniquelyTyped.eq_of_admits (unique : q.UniquelyTyped τ)
    (assigned : p.assignIds = .ok (q, table)) (gathers : Gathers table q c) (admits : c.Admits σ)
    {h : Handle} (typed : table.IsTyped h) : σ h = τ h := by
  obtain ⟨n, member, isTyped, rfl⟩ := Program.exists_node_of_assignIds assigned typed
  exact unique.2 σ (wellTyped_of_admits gathers admits) n member isTyped

private theorem not_uniquelyTyped_of_stuck (assigned : p.assignIds = .ok (q, table))
    (gathers : Gathers table q c) (waits : c.waiting ≠ [])
    (unbound : ∀ a ∈ c.waiting, c.store.term? a.record = none) : ¬ q.UniquelyTyped τ := by
  intro unique
  obtain ⟨σ, admits, -⟩ := exists_admits_of_wellTyped gathers unique.1
  obtain ⟨σ', solves, hold, a, member, differ⟩ :=
    Store.exists_ne_of_stuck gathers.valid.store waits unbound admits.store admits.waiting
  have typed : table.IsTyped a.record :=
    (gathers.isTyped_iff _).mp (gathers.valid.waiting a member).2
  apply differ
  rw [unique.eq_of_admits assigned gathers ⟨solves, hold⟩ typed,
    unique.eq_of_admits assigned gathers admits typed]

private theorem not_uniquelyTyped_of_undetermined (assigned : p.assignIds = .ok (q, table))
    (gathers : Gathers table q c) (done : c.waiting = []) {h : Handle} (typed : table.IsTyped h)
    (undetermined : ¬ c.store.Determines h) : ¬ q.UniquelyTyped τ := by
  intro unique
  refine undetermined fun σ σ' solves solves' => ?_
  rw [unique.eq_of_admits assigned gathers ((Checker.admits_iff_of_done done).mpr solves) typed,
    unique.eq_of_admits assigned gathers ((Checker.admits_iff_of_done done).mpr solves') typed]

private theorem wellTyped_resolve (assigned : p.assignIds = .ok (q, table)) {s : Store}
    {ρ : Assignment} (settled : ∀ h, table.IsTyped h → (s.resolve h).Settled)
    (typed : q.WellTyped Ground.algebra fun h => (s.resolve h).ground ρ) :
    q.WellTyped Ty.algebra s.resolve := by
  have own := (Program.numbered_of_assignIds assigned).typedIn
  intro f member
  have related : Related (Ty.Denotes ρ) table.IsTyped (q.env f)
      (fun h => (s.resolve h).ground ρ) s.resolve :=
    ⟨fun h isTyped => ⟨settled h isTyped, rfl⟩,
      fun _ _ found => Program.typedIn_env own member found⟩
  exact (typed f member).simulate Ty.simulates_ground related fun n inFunction =>
    own n (Program.nodes_subset_of_mem member inFunction)

end Typings

/-- Whatever the policy, a successful check gives every typed node a type without unknown parts,
and these types obey every typing rule up to the order of fields. -/
theorem check_wellTyped {p q : Program} {table : NodeTable} {policy : Policy} {t : Typing}
    (assigned : p.assignIds = .ok (q, table)) (checked : check policy q table = .ok t) :
    ∃ τ : Handle → Ty,
      TypedIn (fun h => t.typeOf h = some (τ h) ∧ (τ h).isResolved) q.nodes ∧
        q.WellTyped Ty.algebra τ := by
  have concludes := concludes_check assigned policy
  rw [checked] at concludes
  cases concludes with
  | @typed c d functions gathers done defaults determines kept =>
    have sound := defaults.valid.store
    have settled : ∀ h, table.IsTyped h → (d.store.resolve h).Settled := fun h isTyped =>
      Store.settled_resolve sound ((Store.determines_iff sound).mp (determines h isTyped))
    have solves := defaults.store.solves (Store.solves_resolve sound.toFormed fun _ => .int)
    have typed := wellTyped_of_admits gathers ((Checker.admits_iff_of_done done).mpr solves)
    refine ⟨d.store.resolve, fun n member isTyped => ?_,
      wellTyped_resolve assigned settled typed⟩
    have inTable := (Program.numbered_of_assignIds assigned).typedIn n member isTyped
    exact ⟨typeOf_eq_some (defaults.nodes ▸ (gathers.isTyped_iff _).mpr inTable),
      (settled _ inTable).isResolved⟩

/-- A record that is known only after its field was read, beside a formal that nothing
determines. -/
theorem check_wellTyped_late_record :
    let p : Program := .ofFunctions [
      { name := "main", formals := [{ name := "x" }], body := [
        .declare {} [{ name := "r" }],
        .output {} (.access {} (.var {} "r") "f"),
        .assign {} (.var {} "r") (.record {}
          [({ name := "g" }, .null {}), ({ name := "f" }, .num {} 1)]),
        .ret {} (.var {} "r")] }]
    p.assignIds = .ok (p.number, p.table) ∧
      ∃ t, check .defaultToInt p.number p.table = .ok t ∧ ∃ τ : Handle → Ty,
        TypedIn (fun h => t.typeOf h = some (τ h) ∧ (τ h).isResolved) p.number.nodes ∧
          p.number.WellTyped Ty.algebra τ := by
  intro p
  have assigned : p.assignIds = .ok (p.number, p.table) := rfl
  have accepted : (check .defaultToInt p.number p.table).toOption.isSome := by decide +kernel
  cases checked : check .defaultToInt p.number p.table with
  | error e =>
    rw [checked] at accepted
    cases accepted
  | ok t => exact ⟨assigned, t, rfl, check_wellTyped assigned checked⟩

/-- A mismatch contradicts every typing: no ground types obey the rules of the program. -/
theorem not_wellTyped_of_mismatch {p q : Program} {table : NodeTable} {policy : Policy}
    {e : TypeError} (assigned : p.assignIds = .ok (q, table))
    (refused : check policy q table = .error e) (mismatch : e.isMismatch) :
    ¬ ∃ τ : Assignment, q.WellTyped Ground.algebra τ := by
  have concludes := concludes_check assigned policy
  rw [refused] at concludes
  rintro ⟨τ, typed⟩
  cases concludes with
  | refuted refutes =>
    cases e with
    | conflict conflict span => exact refutes τ (Checker.admits_start table τ) typed
    | unresolved node kind type span => cases mismatch
    | unboundName name node span => cases mismatch
    | duplicateName name node span => cases mismatch
    | unassigned kind span => cases mismatch
  | stuck gathers waits unbound => cases mismatch
  | ambiguous gathers done typed undetermined => cases mismatch

/-- A record that turns out to lack the field that was read from it. -/
theorem not_wellTyped_of_mismatch_late_record :
    let p : Program := .ofFunctions [
      { name := "main", body := [
        .declare {} [{ name := "r" }],
        .output {} (.access {} (.var {} "r") "f"),
        .assign {} (.var {} "r") (.record {} [({ name := "g" }, .num {} 1)]),
        .ret {} (.num {} 0)] }]
    p.assignIds = .ok (p.number, p.table) ∧
      ∃ e, check .reject p.number p.table = .error e ∧ e.isMismatch ∧
        ¬ ∃ τ : Assignment, p.number.WellTyped Ground.algebra τ := by
  intro p
  have assigned : p.assignIds = .ok (p.number, p.table) := rfl
  have mismatched : (match check .reject p.number p.table with
      | .error e => e.isMismatch
      | .ok _ => false) = true := by decide +kernel
  cases checked : check .reject p.number p.table with
  | ok t =>
    rw [checked] at mismatched
    cases mismatched
  | error e =>
    rw [checked] at mismatched
    exact ⟨assigned, e, rfl, mismatched, not_wellTyped_of_mismatch assigned checked mismatched⟩

/-- When undetermined types are refused, an accepted program has exactly one typing, which the
check reads out, and a program with an unresolved type does not have exactly one. -/
theorem check_reject_uniquelyTyped {p q : Program} {table : NodeTable}
    (assigned : p.assignIds = .ok (q, table)) :
    (∀ t, check .reject q table = .ok t → ∃ τ : Assignment, q.UniquelyTyped τ ∧
      TypedIn (fun h => ∃ type, t.typeOf h = some type ∧ ∀ ρ, type.ground ρ = τ h) q.nodes) ∧
    ∀ node kind type span,
      check .reject q table = .error (.unresolved node kind type span) →
        ¬ ∃ τ : Assignment, q.UniquelyTyped τ := by
  have concludes := concludes_check assigned .reject
  have own := (Program.numbered_of_assignIds assigned).typedIn
  constructor
  · intro t checked
    rw [checked] at concludes
    cases concludes with
    | @typed c d functions gathers done defaults determines kept =>
      have same := kept rfl
      have sound := defaults.valid.store
      have solves := Store.solves_resolve sound.toFormed fun _ => .int
      have admits := (Checker.admits_iff_of_done done).mpr (defaults.store.solves solves)
      refine ⟨_, ⟨wellTyped_of_admits gathers admits, fun τ' typed n member isTyped => ?_⟩,
        fun n member isTyped => ⟨d.store.resolve n.handle, ?_, fun ρ => ?_⟩⟩
      · obtain ⟨σ, admits', agree⟩ := exists_admits_of_wellTyped gathers typed
        have inTable := own n member isTyped
        rw [← agree _ inTable]
        exact determines _ inTable _ _ (same ▸ admits'.store) solves
      · exact typeOf_eq_some
          (defaults.nodes ▸ (gathers.isTyped_iff _).mpr (own n member isTyped))
      · exact determines _ (own n member isTyped) _ _
          (Store.solves_resolve sound.toFormed ρ) solves
  · rintro node kind type span refused ⟨τ, unique⟩
    rw [refused] at concludes
    cases concludes with
    | refuted refutes =>
      exact refutes τ (Checker.admits_start table τ) unique.1
    | stuck gathers waits unbound =>
      exact not_uniquelyTyped_of_stuck assigned gathers waits unbound unique
    | ambiguous gathers done typed undetermined =>
      exact not_uniquelyTyped_of_undetermined assigned gathers done typed undetermined unique

/-- A record that becomes known late is the only one that fits; a formal whose field is returned
could have any further fields. -/
theorem check_reject_uniquelyTyped_records :
    let known : Program := .ofFunctions [
      { name := "main", body := [
        .declare {} [{ name := "r" }],
        .output {} (.access {} (.var {} "r") "f"),
        .assign {} (.var {} "r") (.record {} [({ name := "f" }, .num {} 1)]),
        .ret {} (.var {} "r")] }]
    let stuck : Program := .ofFunctions [
      { name := "first", formals := [{ name := "x" }], body := [
        .ret {} (.access {} (.var {} "x") "f")] }]
    known.assignIds = .ok (known.number, known.table) ∧
      stuck.assignIds = .ok (stuck.number, stuck.table) ∧
      (∃ t, check .reject known.number known.table = .ok t ∧
        ∃ τ : Assignment, known.number.UniquelyTyped τ) ∧
      (∃ node kind type span,
        check .reject stuck.number stuck.table = .error (.unresolved node kind type span)) ∧
      ¬ ∃ τ : Assignment, stuck.number.UniquelyTyped τ := by
  intro known stuck
  have assigned : known.assignIds = .ok (known.number, known.table) := rfl
  have assigned' : stuck.assignIds = .ok (stuck.number, stuck.table) := rfl
  have accepted : (check .reject known.number known.table).toOption.isSome := by decide +kernel
  have unresolved : verdict? (check .reject stuck.number stuck.table) = some .unresolved := by
    decide +kernel
  refine ⟨assigned, assigned', ?_, ?_⟩
  · cases checked : check .reject known.number known.table with
    | error e =>
      rw [checked] at accepted
      cases accepted
    | ok t =>
      obtain ⟨τ, unique, -⟩ := (check_reject_uniquelyTyped assigned).1 t checked
      exact ⟨t, rfl, τ, unique⟩
  · obtain ⟨node, kind, type, span, refused⟩ := exists_unresolved_of_verdict unresolved
    exact ⟨⟨node, kind, type, span, refused⟩,
      (check_reject_uniquelyTyped assigned').2 node kind type span refused⟩

end TypeInference
