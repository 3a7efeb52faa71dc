import TypeInference.Proofs.Checking
import TypeInference.Proofs.Counterparts

/-!
# Gathering constraints

Accesses in waiting may contradict each other without being noticed, so what a check has found out
is said of its store alone. Each constraint met so far holds in all solutions of the store, or is an
access in waiting. Conversely, assignments that agree with the constraints, in that an access may
fail where they leave the record open, survive as solutions, whichever accesses were put off.
-/

set_option autoImplicit false

namespace TypeInference

/-- The constraint concerns handles below `n`, and all assignments in `G` meet it, or it is an
access to a record whose shape they do not agree on. -/
structure Constraint.Suits (n : Nat) (G : Assignment → Prop) (con : Constraint) : Prop where
  covered : con.Over (· < n)
  holds : (∀ σ, G σ → con.Holds σ) ∨ ∃ a, con = .access a ∧ ¬ Shaped G a.record

namespace Checker

/-- The checker with nothing in waiting. -/
def idle (c : Checker) : Checker := { c with waiting := [] }

/-- An outcome with the given accesses in waiting. -/
def restore {α : Type} (waiting : List Access) :
    EStateM.Result TypeError Checker α → EStateM.Result TypeError Checker α
  | .ok a c => .ok a { c with waiting }
  | .error e c => .error e { c with waiting }

private theorem restore_restore {α : Type} (waiting waiting' : List Access)
    (r : EStateM.Result TypeError Checker α) :
    restore waiting (restore waiting' r) = restore waiting r := by
  cases r <;> rfl

/-- Work that neither reads nor changes the accesses in waiting, and can end early by a conflict
only. -/
structure Direct {α : Type} (m : CheckM α) : Prop where
  framed : ∀ c, m c = restore c.waiting (m c.idle)
  conflicts : ∀ c e c', m c = .error e c' → e.isMismatch

section Direct

variable {α β : Type} {m : CheckM α} {c c' : Checker} {a : α} {e : TypeError}

private theorem Direct.waiting (direct : Direct m) (ran : m c = .ok a c') :
    c'.waiting = c.waiting := by
  have framed := direct.framed c
  rw [ran] at framed
  cases idle : m c.idle with
  | ok b d =>
    rw [idle] at framed
    cases framed
    rfl
  | error e d =>
    rw [idle] at framed
    cases framed

theorem Direct.ending (direct : Direct m) :
    c.Ending m (fun _ c' => c'.waiting = c.waiting) fun e _ => e.isMismatch :=
  ending_of_runs (fun _ _ ran => direct.waiting ran) fun e c' ran => direct.conflicts c e c' ran

theorem direct_pure (a : α) : Direct (pure a : CheckM α) :=
  ⟨fun _ => rfl, fun _ _ _ failed => nomatch failed⟩

theorem Direct.bind {f : α → CheckM β} (first : Direct m) (second : ∀ a, Direct (f a)) :
    Direct (m >>= f) where
  framed c := by
    have framed := first.framed c
    cases ran : m c.idle with
    | ok a d =>
      rw [ran] at framed
      rw [bind_apply_ok framed, bind_apply_ok ran, (second a).framed, (second a).framed d,
        restore_restore]
      rfl
    | error e d =>
      rw [ran] at framed
      rw [bind_apply_error framed, bind_apply_error ran]
      rfl
  conflicts c e c' failed := by
    cases ran : m c with
    | ok a d =>
      rw [bind_apply_ok ran] at failed
      exact (second a).conflicts d e c' failed
    | error e' d =>
      rw [bind_apply_error ran] at failed
      cases failed
      exact first.conflicts c _ _ ran

private theorem direct_get {f : Checker → CheckM α} (same : ∀ c, f c.idle = f c)
    (each : ∀ c, Direct (f c)) : Direct (get >>= f) where
  framed c := by
    rw [get_bind_apply, get_bind_apply, same]
    exact (each c).framed c
  conflicts c := (each c).conflicts c

theorem direct_modify {g : Checker → Checker}
    (same : ∀ c, g c = { g c.idle with waiting := c.waiting }) : Direct (modify g) :=
  ⟨fun c => congrArg (EStateM.Result.ok _) (same c), fun _ _ _ failed => nomatch failed⟩

theorem direct_mint (span : Span) : Direct (mint span) :=
  ⟨fun _ => rfl, fun _ _ _ failed => nomatch failed⟩

theorem direct_discard (direct : Direct m) : Direct (discard m) := by
  rw [discard_eq]
  exact direct.bind fun _ => direct_pure ()

private theorem direct_absorb (span : Span) (work : Store → Report) :
    Direct (absorb span work) where
  framed c := by
    rw [absorb, absorb, idle]
    cases (work c.store).conflict? <;> rfl
  conflicts c e c' failed := by
    rw [absorb] at failed
    cases outcome : (work c.store).conflict? with
    | none =>
      rw [outcome] at failed
      cases failed
    | some conflict =>
      rw [outcome] at failed
      cases failed
      rfl

theorem direct_bindAt (span : Span) (node : Handle) (term : Term) :
    Direct (bindAt span node term) := direct_absorb span _

private theorem direct_unifyAt (span : Span) (left right : Handle) :
    Direct (unifyAt span left right) :=
  direct_absorb span _

private theorem direct_refuseAt (span : Span) (reason : Reason) (left right : Handle)
    (expected found : String) :
    Direct (refuseAt span reason left right expected found : CheckM α) :=
  ⟨fun _ => rfl, fun _ _ _ failed => by cases failed; rfl⟩

private theorem direct_solveCall (callee : Handle) (args : List Handle) (result : Handle)
    (span : Span) : Direct (solveCall callee args result span) := by
  refine direct_get (fun _ => rfl) fun c => ?_
  dsimp only
  split
  · split
    · exact direct_bindAt ..
    · exact direct_refuseAt ..
  · exact direct_bindAt ..
  · exact direct_refuseAt ..

private theorem direct_solveDeref (pointer target : Handle) (span : Span) :
    Direct (solveDeref pointer target span) := by
  refine direct_get (fun _ => rfl) fun c => ?_
  dsimp only
  split
  · exact direct_bindAt ..
  · exact direct_bindAt ..
  · exact direct_refuseAt ..

theorem direct_solveAccess (a : Access) (known : Term) : Direct (solveAccess a known) := by
  refine direct_get (fun _ => rfl) fun c => ?_
  cases known with
  | record fields =>
    dsimp only
    split
    · exact direct_unifyAt ..
    · exact direct_refuseAt ..
  | int | pointer _ | function _ _ => exact direct_refuseAt ..

/-- All constraints but accesses and faults of the tree are solved directly. -/
theorem direct_solve {con : Constraint} (plain : ∀ a, con ≠ .access a)
    (faultless : con.Faultless) : Direct (solve con) := by
  cases con with
  | bind node term span => exact direct_bindAt ..
  | unify left right span => exact direct_unifyAt ..
  | call callee args result span => exact direct_solveCall ..
  | deref pointer target span => exact direct_solveDeref ..
  | null node span => exact (direct_mint span).bind fun _ => direct_bindAt ..
  | access a => exact absurd rfl (plain a)
  | repeatedField record field name span => exact direct_refuseAt ..
  | reject error => exact faultless.elim

end Direct

/-- Every assignment in `G` has a counterpart among the solutions of the store, with the same types
below `n`. -/
structure Allows (c : Checker) (n : Nat) (G : Assignment → Prop) : Prop where
  size_le : n ≤ c.nodes.size
  inhabited : ∃ σ, G σ
  counterpart : ∀ σ, G σ → ∃ σ', c.store.Solves σ' ∧ ∀ h < n, σ' h = σ h

/-- A constraint holds in all solutions of the store, or is an access in waiting. -/
def Heeds (c : Checker) (con : Constraint) : Prop :=
  (∀ σ, c.store.Solves σ → con.Holds σ) ∨ ∃ a ∈ c.waiting, con = .access a

/-- The second checker has taken the constraints in: it heeds them, and allows whatever suits
them. -/
structure Gathered (c : Checker) (cs : List Constraint) (c' : Checker) : Prop where
  valid : c'.Valid
  size_le : c.nodes.size ≤ c'.nodes.size
  isTyped_iff : ∀ h, c'.nodes.IsTyped h ↔ c.nodes.IsTyped h
  solves : ∀ σ, c'.store.Solves σ → c.store.Solves σ
  heeds : ∀ con ∈ cs, c'.Heeds con
  waiting : c.waiting ⊆ c'.waiting
  origin : ∀ a ∈ c'.waiting, a ∈ c.waiting ∨ .access a ∈ cs
  allows : ∀ n G, c.Allows n G → (∀ con ∈ cs, con.Suits n G) → c'.Allows n G

/-- Run from `c`, a step takes the constraints in and ends as `K` says, or ends in a conflict, as
nothing that is allowed suits them. -/
def Gathering {α : Type} (c : Checker) (cs : List Constraint) (m : CheckM α)
    (K : α → Checker → Prop) : Prop :=
  c.Ending m (fun a c' => c.Gathered cs c' ∧ K a c') fun e _ =>
    e.isMismatch ∧ ∀ n G, c.Allows n G → ¬ ∀ con ∈ cs, con.Suits n G

variable {c c' c'' : Checker} {cs cs' : List Constraint} {con : Constraint} {n : Nat}
  {G : Assignment → Prop}

private theorem admits_idle {σ : Assignment} : c.idle.Admits σ ↔ c.store.Solves σ :=
  ⟨Admits.store, fun solves => ⟨solves, fun _ member => (by cases member)⟩⟩

private theorem idle_of_done (done : c.waiting = []) : c.idle = c := by rw [idle, ← done]

private theorem Valid.idle (valid : c.Valid) : c.idle.Valid :=
  ⟨valid.store, valid.reads, fun _ member => by cases member⟩

private theorem Allows.shaped (allows : c.Allows n G) {x : Handle} (below : x < n)
    (formed : c.store.Formed) (bound : c.store.term? x ≠ none) : Shaped G x := by
  intro σ σ' inG inG'
  obtain ⟨τ, solves, agree⟩ := allows.counterpart σ inG
  obtain ⟨τ', solves', agree'⟩ := allows.counterpart σ' inG'
  rw [← agree x below, ← agree' x below]
  exact (Store.shaped_iff formed).mpr bound τ τ' solves solves'

private theorem Allows.holds (allows : c.Allows n G) (formed : c.store.Formed)
    (known : ∀ a, con = .access a → c.store.term? a.record ≠ none) (suits : con.Suits n G) :
    ∀ σ, G σ → con.Holds σ := by
  rcases suits.holds with holds | ⟨a, rfl, unshaped⟩
  · exact holds
  · exact absurd (allows.shaped suits.covered.2 formed (known a rfl)) unshaped

private theorem Heeds.of_gathered (gathered : c.Gathered cs c') (heeds : c.Heeds con) :
    c'.Heeds con := by
  rcases heeds with holds | ⟨a, member, rfl⟩
  · exact .inl fun σ solves => holds σ (gathered.solves σ solves)
  · exact .inr ⟨a, gathered.waiting member, rfl⟩

private theorem Gathered.trans (first : c.Gathered cs c') (second : c'.Gathered cs' c'') :
    c.Gathered (cs ++ cs') c'' where
  valid := second.valid
  size_le := first.size_le.trans second.size_le
  isTyped_iff h := (second.isTyped_iff h).trans (first.isTyped_iff h)
  solves σ solves := first.solves σ (second.solves σ solves)
  heeds := List.forall_mem_append.mpr
    ⟨fun con member => (first.heeds con member).of_gathered second, second.heeds⟩
  waiting := List.Subset.trans first.waiting second.waiting
  origin a member := by
    rw [List.mem_append]
    rcases second.origin a member with earlier | own
    · exact (first.origin a earlier).imp_right .inl
    · exact .inr (.inr own)
  allows n G allows suits := by
    obtain ⟨suits, suits'⟩ := List.forall_mem_append.mp suits
    exact second.allows n G (first.allows n G allows suits) suits'

/-- If nothing waited at the start, the constraints hold all that waits now. -/
theorem Gathered.access_mem (gathered : c.Gathered cs c') (start : c.waiting = []) {a : Access}
    (member : a ∈ c'.waiting) : .access a ∈ cs := by
  rcases gathered.origin a member with earlier | own
  · rw [start] at earlier
    cases earlier
  · exact own

/-- A step that changes neither nodes, store nor accesses in waiting takes nothing in. -/
theorem Valid.gathered_of_same (valid : c.Valid) (nodes : c'.nodes = c.nodes)
    (store : c'.store = c.store) (waiting : c'.waiting = c.waiting) : c.Gathered [] c' where
  valid := (valid.adds_of_same nodes store waiting).valid
  size_le := by rw [nodes]
  isTyped_iff h := by rw [nodes]
  solves σ solves := store ▸ solves
  heeds _ member := by cases member
  waiting := by rw [waiting]; exact List.Subset.refl _
  origin a member := .inl (waiting ▸ member)
  allows n G allows _ := ⟨nodes ▸ allows.size_le, allows.inhabited, store ▸ allows.counterpart⟩

section Rules

variable {α β : Type} {m : CheckM α} {K L : α → Checker → Prop}

theorem Gathering.post (gathering : c.Gathering cs m K)
    (ends : ∀ a c', c.Gathered cs c' → K a c' → L a c') : c.Gathering cs m L :=
  Ending.post gathering fun a c' done => ⟨done.1, ends a c' done.1 done.2⟩

/-- One step after another. -/
theorem Gathering.bind {D : List Constraint} {f : α → CheckM β} {L : β → Checker → Prop}
    (first : c.Gathering cs m K)
    (second : ∀ a c', c.Gathered cs c' → K a c' → c'.Gathering D (f a) L) :
    c.Gathering (cs ++ D) (m >>= f) L := by
  refine Ending.bind (first.imp (fun _ _ => id) fun _ _ fails => ?_) fun a c' done => ?_
  · exact ⟨fails.1, fun n G allows suits =>
      fails.2 n G allows (List.forall_mem_append.mp suits).1⟩
  · refine (second a c' done.1 done.2).imp
      (fun _ _ ends => ⟨done.1.trans ends.1, ends.2⟩) fun _ _ fails => ⟨fails.1, ?_⟩
    intro n G allows suits
    obtain ⟨suits, suits'⟩ := List.forall_mem_append.mp suits
    exact fails.2 n G (done.1.allows n G allows suits) suits'

private theorem gathering_pure (valid : c.Valid) {a : α} (ends : K a c) :
    c.Gathering [] (pure a) K :=
  ⟨valid.gathered_of_same rfl rfl rfl, ends⟩

/-- A list of steps takes the constraints of all in; `I` holds between them. -/
theorem gathering_forM {xs : List β} {step : β → CheckM Unit} {D : β → List Constraint}
    {I : Checker → Prop}
    (steps : ∀ x ∈ xs, ∀ c, c.Valid → I c → c.Gathering (D x) (step x) fun _ c' => I c')
    (valid : c.Valid) (start : I c) :
    c.Gathering (xs.flatMap D) (xs.forM step) fun _ c' => I c' := by
  induction xs generalizing c with
  | nil => exact gathering_pure valid start
  | cons x rest ih =>
    obtain ⟨first, others⟩ := List.forall_mem_cons.mp steps
    rw [List.flatMap_cons]
    exact (first c valid start).bind fun _ c' gathered inv => ih others gathered.valid inv

end Rules

section Steps

/-- Direct work that adds a constraint as a demand on the store takes it in, provided that it is no
access to an unbound record. -/
private theorem gathering_of_adding {m : CheckM Unit} {K : Unit → Checker → Prop} (valid : c.Valid)
    (direct : Direct m) (known : ∀ a, con = .access a → c.store.term? a.record ≠ none)
    (adding : c.idle.Adding con.Holds m K) :
    c.Gathering [con] m fun _ c' =>
      K () c'.idle ∧ c'.waiting = c.waiting ∧ ∀ σ, c'.store.Solves σ → con.Holds σ := by
  have framed := direct.framed c
  rw [Adding, Ending] at adding
  rw [Gathering, Ending]
  cases ran : m c.idle with
  | ok a d =>
    rw [ran] at adding framed
    obtain ⟨adds, ends⟩ := adding
    have done : d.waiting = [] := direct.waiting ran
    have same := idle_of_done done
    have meets : ∀ σ, d.store.Solves σ → c.store.Solves σ ∧ con.Holds σ := by
      intro σ solves
      obtain ⟨admits, holds⟩ := adds.meets σ (same ▸ admits_idle.mpr solves)
      exact ⟨admits.store, holds⟩
    rw [framed]
    refine ⟨⟨⟨adds.valid.store, adds.valid.reads, ?_⟩, adds.size_le, adds.isTyped_iff,
      fun σ solves => (meets σ solves).1, ?_, List.Subset.refl _, fun _ => .inl, ?_⟩, ?_, rfl,
      fun σ solves => (meets σ solves).2⟩
    · intro b member
      rw [show ({ d with waiting := c.waiting } : Checker).nodes = d.nodes from rfl,
        adds.isTyped_iff, adds.isTyped_iff]
      exact valid.waiting b member
    · exact List.forall_mem_singleton.mpr (.inl fun σ solves => (meets σ solves).2)
    · intro n G allows suits
      have suit := List.forall_mem_singleton.mp suits
      have holds := allows.holds valid.store.toFormed known suit
      refine ⟨allows.size_le.trans adds.size_le, allows.inhabited, fun σ inG => ?_⟩
      obtain ⟨σ', solves, agree⟩ := allows.counterpart σ inG
      have holds' : con.Holds σ' := suit.covered.holds_congr (fun h below => (agree h below).symm)
        (holds σ inG)
      obtain ⟨σ'', admits, agree'⟩ := adds.extension σ' (admits_idle.mpr solves) holds'
      exact ⟨σ'', admits.store, fun h below =>
        (agree' h (below.trans_le allows.size_le)).trans (agree h below)⟩
    · exact same.symm ▸ ends
  | error e d =>
    rw [ran] at adding framed
    have mismatch := direct.conflicts _ e d ran
    rw [framed]
    refine ⟨mismatch, fun n G allows suits => ?_⟩
    have suit := List.forall_mem_singleton.mp suits
    obtain ⟨σ, inG⟩ := allows.inhabited
    obtain ⟨σ', solves, agree⟩ := allows.counterpart σ inG
    have holds : con.Holds σ' := suit.covered.holds_congr (fun h below => (agree h below).symm)
      (allows.holds valid.store.toFormed known suit σ inG)
    exact adding.absurd mismatch σ' (admits_idle.mpr solves) holds

private theorem gathering_solveAccess {a : Access} {known : Term} (valid : c.Valid)
    (bound : c.store.term? a.record = some known)
    (fits : c.nodes.IsTyped a.node ∧ c.nodes.IsTyped a.record) :
    c.Gathering [.access a] (solveAccess a known) fun _ c' => c.SameNames c' ∧
      c'.waiting = c.waiting ∧ ∀ σ, c'.store.Solves σ → a.Holds σ := by
  have covered : (Constraint.access a).Over (· < c.nodes.size) :=
    ⟨fits.1.lt_size, fits.2.lt_size⟩
  have adding : c.idle.Adding (Constraint.access a).Holds (solveAccess a known)
      fun _ c' => c.idle.SameNames c' :=
    (adding_solveAccess valid.idle bound covered.readsBelow).post fun _ _ _ => Stores.names
  refine (gathering_of_adding valid (direct_solveAccess a known) ?_ adding).post
    fun _ _ _ ends => ⟨⟨ends.1.functions, ends.1.returns, ends.1.scope⟩, ends.2⟩
  intro b equal
  cases equal
  rw [bound]
  simp

private theorem Valid.gathered_waiting (valid : c.Valid) {a : Access}
    (fits : c.nodes.IsTyped a.node ∧ c.nodes.IsTyped a.record) :
    c.Gathered [.access a] { c with waiting := c.waiting ++ [a] } where
  valid := ⟨valid.store, valid.reads,
    List.forall_mem_append.mpr ⟨valid.waiting, List.forall_mem_singleton.mpr fits⟩⟩
  size_le := Nat.le_refl _
  isTyped_iff _ := Iff.rfl
  solves _ := id
  heeds := List.forall_mem_singleton.mpr
    (.inr ⟨a, List.mem_append_right _ (List.mem_singleton_self a), rfl⟩)
  waiting := List.subset_append_left _ _
  origin b member := by
    rcases List.mem_append.mp member with earlier | own
    · exact .inl earlier
    · rw [List.mem_singleton.mp own]
      exact .inr (List.mem_singleton_self _)
  allows _ _ allows _ := ⟨allows.size_le, allows.inhabited, allows.counterpart⟩

private theorem gathering_solve (valid : c.Valid) (fits : c.nodes.Fits con)
    (distinct : con.DistinctNames) (faultless : con.Faultless) :
    c.Gathering [con] (solve con) fun _ c' => c.SameNames c' := by
  by_cases isAccess : ∃ a, con = .access a
  · obtain ⟨a, rfl⟩ := isAccess
    refine ending_get ?_
    cases bound : c.store.term? a.record with
    | some known =>
      exact (gathering_solveAccess valid bound (fits.access a rfl)).post fun _ _ _ ends => ends.1
    | none => exact ⟨valid.gathered_waiting (fits.access a rfl), rfl, rfl, rfl⟩
  · have plain : ∀ a, con ≠ .access a := fun a equal => isAccess ⟨a, equal⟩
    have adding : c.idle.Adding con.Holds (solve con) fun _ c' => c.idle.SameNames c' :=
      adding_solve valid.idle fits distinct
    exact (gathering_of_adding valid (direct_solve plain faultless)
      (fun a equal => absurd equal (plain a)) adding).post fun _ _ _ ends =>
        ⟨ends.1.functions, ends.1.returns, ends.1.scope⟩

/-- Solving constraints in order takes all of them in. -/
theorem gathering_solveAll (valid : c.Valid) (fits : ∀ con ∈ cs, c.nodes.Fits con)
    (orderly : Constraint.Orderly cs) (faultless : ∀ con ∈ cs, con.Faultless) :
    c.Gathering cs (solveAll cs) fun _ c' => c.SameNames c' := by
  induction cs generalizing c with
  | nil => exact gathering_pure valid (.refl c)
  | cons con rest ih =>
    obtain ⟨fitsFirst, fitsRest⟩ := List.forall_mem_cons.mp fits
    obtain ⟨faultlessFirst, faultlessRest⟩ := List.forall_mem_cons.mp faultless
    obtain ⟨distinct, later⟩ := orderly
    have first := gathering_solve valid fitsFirst distinct faultlessFirst
    rw [solveAll]
    rcases later with impossible | orderlyRest
    · obtain ⟨e, c', failed⟩ := solve_eq_error_of_impossible (c := c) impossible
      obtain ⟨mismatch, unsuited⟩ := first.of_error failed
      rw [Gathering, Ending, bind_apply_error failed]
      exact ⟨mismatch, fun n G allows suits =>
        unsuited n G allows (List.forall_mem_singleton.mpr (suits con List.mem_cons_self))⟩
    · exact first.bind (D := rest) fun _ c' gathered names =>
        (ih gathered.valid (fun other member =>
          (fitsRest other member).grow gathered.size_le gathered.isTyped_iff) orderlyRest
          faultlessRest).post fun _ _ _ names' => names.trans names'

end Steps

end Checker

end TypeInference
