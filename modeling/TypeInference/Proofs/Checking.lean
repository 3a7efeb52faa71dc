import TypeInference.Checker.Solve
import TypeInference.Proofs.Constraints
import TypeInference.Proofs.Outcomes
import TypeInference.Proofs.Solutions

/-!
# What steps of a check do to typings

A checker admits the assignments that its store and the accesses in waiting permit. A step that
succeeds adds a demand: it keeps exactly the admitted assignments that meet the demand, but for the
types of handles that it minted. A step that fails has shown that none of them meets it.
-/

set_option autoImplicit false

namespace TypeInference

/-- A property of assignments that depends on the types of the handles below `n` only. -/
def ReadsBelow (n : Nat) (P : Assignment → Prop) : Prop :=
  ∀ ⦃σ σ' : Assignment⦄, (∀ h < n, σ h = σ' h) → P σ → P σ'

theorem ReadsBelow.mono {n n' : Nat} {P : Assignment → Prop} (reads : ReadsBelow n P)
    (le : n ≤ n') : ReadsBelow n' P :=
  fun _ _ agree => reads fun h below => agree h (below.trans_le le)

private theorem ReadsBelow.and {n : Nat} {P Q : Assignment → Prop} (reads : ReadsBelow n P)
    (reads' : ReadsBelow n Q) : ReadsBelow n fun σ => P σ ∧ Q σ :=
  fun _ _ agree holds => ⟨reads agree holds.1, reads' agree holds.2⟩

theorem readsBelow_true (n : Nat) : ReadsBelow n fun _ => True := fun _ _ _ _ => trivial

theorem Constraint.Over.readsBelow {n : Nat} {con : Constraint} (covered : con.Over (· < n)) :
    ReadsBelow n con.Holds :=
  fun _ _ agree => covered.holds_congr agree

namespace NodeTable

theorem isTyped_mint {table : NodeTable} {span : Span} {h : Handle} :
    (table.mint span).IsTyped h ↔ table.IsTyped h := by
  rcases Nat.lt_trichotomy h table.size with below | rfl | above
  · rw [IsTyped, IsTyped, get, get, get?_mint_of_lt table span below]
  · have minted : (table.mint span).get? table.size = some { kind := .fresh, span } := by
      simp [mint, get?, size]
    have missing : table.get? table.size = none := by simp [get?, size]
    simp [IsTyped, get, minted, missing]
  · have outside : ¬ h < (table.mint span).size := by
      rw [size_mint]
      exact Nat.not_lt.mpr above
    exact ⟨fun typed => absurd typed.lt_size outside,
      fun typed => absurd typed.lt_size (Nat.not_lt.mpr (Nat.le_of_lt above))⟩

/-- A constraint that names handles of the table, its access between typed nodes. -/
structure Fits (table : NodeTable) (con : Constraint) : Prop where
  covered : con.Over (· < table.size)
  access : ∀ a, con = .access a → table.IsTyped a.node ∧ table.IsTyped a.record

/-- A constraint that fits a table fits it when only minted handles are added. -/
theorem Fits.grow {table table' : NodeTable} {con : Constraint} (fits : table.Fits con)
    (size_le : table.size ≤ table'.size) (isTyped_iff : ∀ h, table'.IsTyped h ↔ table.IsTyped h) :
    table'.Fits con where
  covered := fits.covered.mono fun _ below => below.trans_le size_le
  access a equal := by
    rw [isTyped_iff, isTyped_iff]
    exact fits.access a equal

theorem fits_of_over {table : NodeTable} {con : Constraint} (covered : con.Over table.IsTyped) :
    table.Fits con where
  covered := covered.mono fun _ typed => typed.lt_size
  access a equal := by
    subst equal
    exact covered

end NodeTable

namespace Checker

/-- The store and the accesses in waiting permit the types. -/
structure Admits (c : Checker) (σ : Assignment) : Prop where
  store : c.store.Solves σ
  waiting : ∀ a ∈ c.waiting, a.Holds σ

/-- A checker whose store is sound and mentions only handles given out, with accesses between typed
nodes in waiting. -/
structure Valid (c : Checker) : Prop where
  store : c.store.Sound
  reads : ReadsBelow c.nodes.size c.store.Solves
  waiting : ∀ a ∈ c.waiting, c.nodes.IsTyped a.node ∧ c.nodes.IsTyped a.record

theorem Valid.readsBelow_access {c : Checker} (valid : c.Valid) {a : Access}
    (member : a ∈ c.waiting) : ReadsBelow c.nodes.size a.Holds := by
  obtain ⟨node, record⟩ := valid.waiting a member
  intro σ σ' agree holds
  rw [Access.Holds, ← agree _ node.lt_size, ← agree _ record.lt_size]
  exact holds

private theorem Valid.readsBelow_admits {c : Checker} (valid : c.Valid) :
    ReadsBelow c.nodes.size c.Admits :=
  fun _ _ agree admits => ⟨valid.reads agree admits.store, fun a member =>
    valid.readsBelow_access member agree (admits.waiting a member)⟩

/-- The second checker admits what the first does and `P` demands. -/
structure Adds (c : Checker) (P : Assignment → Prop) (c' : Checker) : Prop where
  valid : c'.Valid
  size_le : c.nodes.size ≤ c'.nodes.size
  isTyped_iff : ∀ h, c'.nodes.IsTyped h ↔ c.nodes.IsTyped h
  meets : ∀ σ, c'.Admits σ → c.Admits σ ∧ P σ
  extension : ∀ σ, c.Admits σ → P σ → ∃ σ', c'.Admits σ' ∧ ∀ h < c.nodes.size, σ' h = σ h

/-- What an error says: unless a name was declared twice, nothing admitted meets `P`. -/
def Refutes (c : Checker) (P : Assignment → Prop) : TypeError → Prop
  | .duplicateName .. => True
  | _ => ∀ σ, c.Admits σ → ¬ P σ

/-- Run from `c`, a step adds the demand `P` and ends as `K` says, or refutes it. -/
def Adding {α : Type} (c : Checker) (P : Assignment → Prop) (m : CheckM α)
    (K : α → Checker → Prop) : Prop :=
  c.Ending m (fun a c' => c.Adds P c' ∧ K a c') fun e _ => c.Refutes P e

/-- The declared functions, their return slots and the names in scope are the same. -/
structure SameNames (c c' : Checker) : Prop where
  functions : c'.functions = c.functions
  returns : c'.returns = c.returns
  scope : c'.scope = c.scope

theorem SameNames.refl (c : Checker) : c.SameNames c := ⟨rfl, rfl, rfl⟩

theorem SameNames.trans {c c' c'' : Checker} (first : c.SameNames c') (second : c'.SameNames c'') :
    c.SameNames c'' :=
  ⟨second.functions.trans first.functions, second.returns.trans first.returns,
    second.scope.trans first.scope⟩

/-- Only the store was worked on, and its solutions are those that meet `P`. -/
structure Stores (c : Checker) (P : Assignment → Prop) (c' : Checker) : Prop where
  names : c.SameNames c'
  nodes : c'.nodes = c.nodes
  waiting : c'.waiting = c.waiting
  solves_iff : ∀ σ, c'.store.Solves σ ↔ c.store.Solves σ ∧ P σ

variable {c c' c'' : Checker} {P Q : Assignment → Prop} {e : TypeError}

/-- A checker that has seen nothing admits all types. -/
theorem admits_start (table : NodeTable) (σ : Assignment) : Admits { nodes := table } σ :=
  ⟨⟨fun _ => rfl, fun _ _ bound => (by simp [Store.term?] at bound)⟩,
    fun _ member => (by cases member)⟩

theorem refutes_of_absurd (absurd : ∀ σ, c.Admits σ → ¬ P σ) : c.Refutes P e := by
  cases e with
  | duplicateName => trivial
  | conflict | unresolved | unboundName | unassigned => exact absurd

/-- A mismatch refutes in earnest. -/
theorem Refutes.absurd (refutes : c.Refutes P e) (mismatch : e.isMismatch) :
    ∀ σ, c.Admits σ → ¬ P σ := by
  cases e with
  | conflict => exact refutes
  | duplicateName | unresolved | unboundName | unassigned => cases mismatch

theorem Refutes.imp (refutes : c.Refutes P e)
    (carry : (∀ σ, c.Admits σ → ¬ P σ) → ∀ σ, c'.Admits σ → ¬ Q σ) : c'.Refutes Q e := by
  cases e with
  | duplicateName => trivial
  | conflict | unresolved | unboundName | unassigned => exact carry refutes

/-- Demands in turn amount to their conjunction. -/
theorem Adds.trans (first : c.Adds P c') (second : c'.Adds Q c'')
    (reads : ReadsBelow c.nodes.size Q) : c.Adds (fun σ => P σ ∧ Q σ) c'' where
  valid := second.valid
  size_le := first.size_le.trans second.size_le
  isTyped_iff h := (second.isTyped_iff h).trans (first.isTyped_iff h)
  meets σ admits := by
    obtain ⟨admits', demand'⟩ := second.meets σ admits
    obtain ⟨admits, demand⟩ := first.meets σ admits'
    exact ⟨admits, demand, demand'⟩
  extension σ admits demands := by
    obtain ⟨σ', admits', agree⟩ := first.extension σ admits demands.1
    have demand' : Q σ' := reads (fun h below => (agree h below).symm) demands.2
    obtain ⟨σ'', admits'', agree'⟩ := second.extension σ' admits' demand'
    exact ⟨σ'', admits'', fun h below =>
      (agree' h (below.trans_le first.size_le)).trans (agree h below)⟩

theorem Adds.congr (adds : c.Adds P c') (same : ∀ σ, c.Admits σ → (P σ ↔ Q σ)) : c.Adds Q c' where
  valid := adds.valid
  size_le := adds.size_le
  isTyped_iff := adds.isTyped_iff
  meets σ admits := by
    obtain ⟨admits, demand⟩ := adds.meets σ admits
    exact ⟨admits, (same σ admits).mp demand⟩
  extension σ admits demand := adds.extension σ admits ((same σ admits).mpr demand)

section Rules

variable {α β : Type} {m : CheckM α} {K L : α → Checker → Prop}

theorem absorb_of_accepted (span : Span) (work : Store → Report)
    (accepted : (work c.store).conflict? = none) :
    absorb span work c = .ok () { c with
      store := (work c.store).store, log := c.log ++ (work c.store).events } := by
  simp [absorb, accepted]

private theorem Adds.refutes (adds : c.Adds P c') (reads : ReadsBelow c.nodes.size Q)
    (refutes : c'.Refutes Q e) : c.Refutes (fun σ => P σ ∧ Q σ) e := by
  refine refutes.imp fun absurd σ admits demands => ?_
  obtain ⟨σ', admits', agree⟩ := adds.extension σ admits demands.1
  exact absurd σ' admits' (reads (fun h below => (agree h below).symm) demands.2)

theorem Adding.congr (adding : c.Adding P m K) (same : ∀ σ, c.Admits σ → (P σ ↔ Q σ)) :
    c.Adding Q m K :=
  adding.imp (fun _ _ ends => ⟨ends.1.congr same, ends.2⟩) fun _ _ refutes =>
    refutes.imp fun absurd σ admits demand => absurd σ admits ((same σ admits).mpr demand)

theorem Adding.post (adding : c.Adding P m K)
    (ends : ∀ a c', c.Adds P c' → K a c' → L a c') : c.Adding P m L :=
  Ending.post adding fun a c' done => ⟨done.1, ends a c' done.1 done.2⟩

/-- One step after another: the second must not look at handles that the first mints. -/
theorem Adding.bind {f : α → CheckM β} {L : β → Checker → Prop} (first : c.Adding P m K)
    (second : ∀ a c', c.Adds P c' → K a c' → c'.Adding Q (f a) L)
    (reads : ReadsBelow c.nodes.size Q) : c.Adding (fun σ => P σ ∧ Q σ) (m >>= f) L := by
  refine Ending.bind (first.imp (fun _ _ => id) fun _ _ refutes => ?_) fun a c' done => ?_
  · exact refutes.imp fun absurd σ admits demands => absurd σ admits demands.1
  · exact (second a c' done.1 done.2).imp
      (fun _ _ ends => ⟨done.1.trans ends.1 reads, ends.2⟩) fun _ _ => done.1.refutes reads

/-- A step that changes neither nodes, store nor accesses in waiting demands nothing. -/
theorem Valid.adds_of_same (valid : c.Valid) (nodes : c'.nodes = c.nodes)
    (store : c'.store = c.store) (waiting : c'.waiting = c.waiting) :
    c.Adds (fun _ => True) c' := by
  have admits_iff : ∀ σ, c'.Admits σ ↔ c.Admits σ := by
    intro σ
    exact ⟨fun admits => ⟨store ▸ admits.store, waiting ▸ admits.waiting⟩,
      fun admits => ⟨store ▸ admits.store, waiting ▸ admits.waiting⟩⟩
  refine ⟨⟨store ▸ valid.store, ?_, ?_⟩, by rw [nodes], fun h => by rw [nodes], ?_, ?_⟩
  · rw [nodes, store]
    exact valid.reads
  · rw [nodes, waiting]
    exact valid.waiting
  · exact fun σ admits => ⟨(admits_iff σ).mp admits, trivial⟩
  · exact fun σ admits _ => ⟨σ, (admits_iff σ).mpr admits, fun _ _ => rfl⟩

/-- A list of steps adds all demands; `I` says what holds after the steps done so far. -/
theorem adding_forM {xs : List α} {step : α → CheckM Unit} {D : α → Assignment → Prop}
    {I : List α → Checker → Prop} (valid : c.Valid)
    (reads : ∀ x ∈ xs, ReadsBelow c.nodes.size (D x))
    (steps : ∀ done x rest, xs = done ++ x :: rest → ∀ c, I done c →
      c.Adding (D x) (step x) fun _ c' => I (done ++ [x]) c')
    (start : I [] c) :
    c.Adding (fun σ => ∀ x ∈ xs, D x σ) (xs.forM step) fun _ c' => I xs c' := by
  let J (done : List α) (c' : Checker) : Prop :=
    c.Adds (fun σ => ∀ x ∈ done, D x σ) c' ∧ I done c'
  refine ending_forM (I := J) ?_ ⟨(valid.adds_of_same rfl rfl rfl).congr (by simp), start⟩
  rintro done x rest split c' ⟨adds, inv⟩
  have reads' := reads x (by simp [split])
  refine (steps done x rest split c' inv).imp (fun _ c'' ends => ⟨?_, ends.2⟩) ?_
  · exact (adds.trans ends.1 reads').congr fun σ _ => by simp [or_imp, forall_and]
  · exact fun e _ refutes => (adds.refutes reads' refutes).imp fun absurd σ admits demands =>
      absurd σ admits ⟨fun y member => demands y (by simp [split, member]),
        demands x (by simp [split])⟩

/-- A step that goes on as another does from a checker `d`, where each admitted assignment that
meets `P` has a counterpart that meets `Q`. -/
private theorem Adding.carry {next : CheckM α} {d : Checker} (adding : d.Adding Q next K)
    (same : m c = next d) (size_le : c.nodes.size ≤ d.nodes.size)
    (isTyped_iff : ∀ h, d.nodes.IsTyped h ↔ c.nodes.IsTyped h)
    (sound : ∀ σ, d.Admits σ → Q σ → c.Admits σ ∧ P σ)
    (complete : ∀ σ, c.Admits σ → P σ →
      ∃ σ', d.Admits σ' ∧ Q σ' ∧ ∀ h < c.nodes.size, σ' h = σ h) : c.Adding P m K := by
  refine Ending.of_eq (adding.imp (fun a c' done => ?_) fun e _ refutes => ?_) same
  · obtain ⟨adds, ends⟩ := done
    refine ⟨⟨adds.valid, size_le.trans adds.size_le,
      fun h => (adds.isTyped_iff h).trans (isTyped_iff h), ?_, ?_⟩, ends⟩
    · intro σ admits
      obtain ⟨admits', demand⟩ := adds.meets σ admits
      exact sound σ admits' demand
    · intro σ admits demand
      obtain ⟨σ', admits', demand', agree⟩ := complete σ admits demand
      obtain ⟨σ'', admits'', agree'⟩ := adds.extension σ' admits' demand'
      exact ⟨σ'', admits'', fun h below =>
        (agree' h (below.trans_le size_le)).trans (agree h below)⟩
  · refine refutes.imp fun absurd σ admits demand => ?_
    obtain ⟨σ', admits', demand', -⟩ := complete σ admits demand
    exact absurd σ' admits' demand'

/-- A step after a change to neither nodes, store nor accesses in waiting. -/
theorem adding_modify {g : Checker → Checker} {next : CheckM α}
    (nodes : (g c).nodes = c.nodes) (store : (g c).store = c.store)
    (waiting : (g c).waiting = c.waiting) (adding : (g c).Adding P next K) :
    c.Adding P (modify g >>= fun _ => next) K := by
  refine adding.carry rfl (by rw [nodes]) (fun h => by rw [nodes]) ?_ ?_
  · exact fun σ admits demand => ⟨⟨store ▸ admits.store, waiting ▸ admits.waiting⟩, demand⟩
  · exact fun σ admits demand =>
      ⟨σ, ⟨store ▸ admits.store, waiting ▸ admits.waiting⟩, demand, fun _ _ => rfl⟩

private theorem Valid.adds_mint (valid : c.Valid) (span : Span) :
    c.Adds (fun _ => True) { c with nodes := c.nodes.mint span } := by
  have size_le : c.nodes.size ≤ (c.nodes.mint span).size := by
    rw [NodeTable.size_mint]
    exact Nat.le_succ _
  refine ⟨⟨valid.store, valid.reads.mono size_le, ?_⟩, size_le, fun h => NodeTable.isTyped_mint,
    ?_, ?_⟩
  · simpa only [NodeTable.isTyped_mint] using valid.waiting
  · exact fun σ admits => ⟨⟨admits.store, admits.waiting⟩, trivial⟩
  · exact fun σ admits _ => ⟨σ, ⟨admits.store, admits.waiting⟩, fun _ _ => rfl⟩

/-- A type that a minted handle stands for may be chosen to meet a demand on the handle. -/
theorem adding_mint {span : Span} {f : Handle → CheckM α} (valid : c.Valid)
    (next : ∀ c', c'.nodes = c.nodes.mint span → c.SameNames c' →
      c.Adds (fun _ => True) c' → c'.Adding Q (f c.nodes.size) K)
    (sound : ∀ σ, Q σ → P σ)
    (complete : ∀ σ, P σ → ∃ type, Q (Function.update σ c.nodes.size type)) :
    c.Adding P (mint span >>= f) K := by
  have minted := valid.adds_mint span
  have adding := next { c with nodes := c.nodes.mint span } rfl ⟨rfl, rfl, rfl⟩ minted
  refine adding.carry rfl minted.size_le minted.isTyped_iff ?_ ?_
  · exact fun σ admits demand => ⟨(minted.meets σ admits).1, sound σ demand⟩
  · -- the type chosen for the minted handle changes nothing below it
    intro σ admits demand
    obtain ⟨type, demand'⟩ := complete σ demand
    have agree : ∀ h < c.nodes.size, Function.update σ c.nodes.size type h = σ h :=
      fun h below => Function.update_of_ne below.ne type σ
    obtain ⟨solves, hold⟩ := valid.readsBelow_admits (fun h below => (agree h below).symm) admits
    exact ⟨_, ⟨solves, hold⟩, demand', agree⟩

end Rules

section Steps

variable {span : Span}

private theorem adding_absorb {work : Store → Report} (valid : c.Valid)
    (decides : (work c.store).Decides c.store P) (same : ∀ σ, c.store.Solves σ → (P σ ↔ Q σ))
    (reads : ReadsBelow c.nodes.size Q) :
    c.Adding Q (absorb span work) fun _ c' => c.Stores Q c' := by
  refine ending_absorb (fun accepted log => ?_) fun conflict refused log σ admits demand => ?_
  · let c₁ : Checker := { c with store := (work c.store).store, log }
    have solves_iff : ∀ σ, c₁.store.Solves σ ↔ c.store.Solves σ ∧ Q σ := fun σ =>
      (decides.accepts accepted σ).trans (and_congr_right (same σ))
    have admits_iff : ∀ σ, c₁.Admits σ ↔ c.Admits σ ∧ Q σ := by
      intro σ
      constructor
      · rintro ⟨solves, hold⟩
        obtain ⟨solves, demand⟩ := (solves_iff σ).mp solves
        exact ⟨⟨solves, hold⟩, demand⟩
      · rintro ⟨admits, demand⟩
        exact ⟨(solves_iff σ).mpr ⟨admits.store, demand⟩, admits.waiting⟩
    refine ⟨⟨⟨decides.sound, ?_, valid.waiting⟩, Nat.le_refl _, fun h => Iff.rfl, ?_, ?_⟩,
      ⟨rfl, rfl, rfl⟩, rfl, rfl, solves_iff⟩
    · intro σ σ' agree solves
      exact (solves_iff σ').mpr (valid.reads.and reads agree ((solves_iff σ).mp solves))
    · exact fun σ admits => (admits_iff σ).mp admits
    · exact fun σ admits demand => ⟨σ, (admits_iff σ).mpr ⟨admits, demand⟩, fun _ _ => rfl⟩
  · exact decides.refuses conflict refused σ admits.store ((same σ admits.store).mpr demand)

theorem adding_bindAt {node : Handle} {term : Term} (valid : c.Valid)
    (distinct : term.DistinctNames) (same : ∀ σ, c.store.Solves σ → (σ node = term.ground σ ↔ Q σ))
    (reads : ReadsBelow c.nodes.size Q) :
    c.Adding Q (bindAt span node term) fun _ c' => c.Stores Q c' :=
  adding_absorb valid (Store.bind_decides valid.store node distinct) same reads

private theorem adding_unifyAt {left right : Handle} (valid : c.Valid)
    (same : ∀ σ, c.store.Solves σ → (σ left = σ right ↔ Q σ)) (reads : ReadsBelow c.nodes.size Q) :
    c.Adding Q (unifyAt span left right) fun _ c' => c.Stores Q c' :=
  adding_absorb valid (Store.unify_decides valid.store left right) same reads

private theorem adding_refuseAt {α : Type} {reason : Reason} {left right : Handle}
    {expected found : String} {K : α → Checker → Prop} (absurd : ∀ σ, c.Admits σ → ¬ P σ) :
    c.Adding P (refuseAt span reason left right expected found) K := absurd

private theorem adding_solveCall {callee result : Handle} {args : List Handle} (valid : c.Valid)
    (reads : ReadsBelow c.nodes.size (Constraint.call callee args result span).Holds) :
    c.Adding (Constraint.call callee args result span).Holds (solveCall callee args result span)
      fun _ c' => c.SameNames c' := by
  have plain : (Term.function args result).DistinctNames := trivial
  have accept : c.Adding (Constraint.call callee args result span).Holds
      (bindAt span callee (.function args result)) fun _ c' => c.SameNames c' :=
    (adding_bindAt valid plain (fun _ _ => Iff.rfl) reads).post fun _ _ _ => Stores.names
  rw [solveCall]
  refine ending_get ?_
  dsimp only
  split
  · rename_i params target bound
    split
    · exact accept
    · rename_i unequal
      refine adding_refuseAt fun σ admits holds => unequal ?_
      have known := (admits.store.terms callee _ bound).symm.trans holds
      simpa [Term.ground] using congrArg List.length (Ground.function.inj known).1
  · exact accept
  · rename_i known other bound
    refine adding_refuseAt fun σ admits holds => ?_
    have equal := (admits.store.terms callee _ bound).symm.trans holds
    cases known with
    | function params target => exact other params target rfl
    | int => cases equal
    | pointer target => cases equal
    | record fields => cases equal

private theorem adding_solveDeref {pointer target : Handle} (valid : c.Valid)
    (reads : ReadsBelow c.nodes.size (Constraint.deref pointer target span).Holds) :
    c.Adding (Constraint.deref pointer target span).Holds (solveDeref pointer target span)
      fun _ c' => c.SameNames c' := by
  have plain : (Term.pointer target).DistinctNames := trivial
  have accept : c.Adding (Constraint.deref pointer target span).Holds
      (bindAt span pointer (.pointer target)) fun _ c' => c.SameNames c' :=
    (adding_bindAt valid plain (fun _ _ => Iff.rfl) reads).post fun _ _ _ => Stores.names
  rw [solveDeref]
  refine ending_get ?_
  dsimp only
  split
  · exact accept
  · exact accept
  · rename_i known other bound
    refine adding_refuseAt fun σ admits holds => ?_
    have equal := (admits.store.terms pointer _ bound).symm.trans holds
    cases known with
    | pointer inner => exact other inner rfl
    | int => cases equal
    | function params target => cases equal
    | record fields => cases equal

/-- An access to a known record is decided on the spot. -/
theorem adding_solveAccess {a : Access} {known : Term} (valid : c.Valid)
    (bound : c.store.term? a.record = some known) (reads : ReadsBelow c.nodes.size a.Holds) :
    c.Adding a.Holds (solveAccess a known) fun _ c' => c.Stores a.Holds c' := by
  have holds_iff : ∀ σ, c.store.Solves σ →
      (a.Holds σ ↔ (known.field? a.field).map σ = some (σ a.node)) :=
    fun σ solves => Access.holds_iff (solves.terms a.record known bound)
  rw [solveAccess]
  refine ending_get ?_
  cases known with
  | record fields =>
    dsimp only
    rw [Term.field?] at holds_iff
    cases found : fields.lookup a.field with
    | some field =>
      refine adding_unifyAt valid (fun σ solves => ?_) reads
      rw [holds_iff σ solves, found, Option.map_some, Option.some.injEq]
      exact eq_comm
    | none =>
      refine adding_refuseAt fun σ admits holds => ?_
      rw [holds_iff σ admits.store, found] at holds
      cases holds
  | int | pointer _ | function _ _ =>
    refine adding_refuseAt fun σ admits holds => ?_
    rw [holds_iff σ admits.store] at holds
    cases holds

private theorem Valid.adds_waiting (valid : c.Valid) {a : Access}
    (typed : c.nodes.IsTyped a.node ∧ c.nodes.IsTyped a.record) :
    c.Adds a.Holds { c with waiting := c.waiting ++ [a] } := by
  have admits_iff : ∀ σ, { c with waiting := c.waiting ++ [a] : Checker }.Admits σ ↔
      c.Admits σ ∧ a.Holds σ := by
    intro σ
    constructor
    · rintro ⟨solves, hold⟩
      obtain ⟨earlier, own⟩ := List.forall_mem_append.mp hold
      exact ⟨⟨solves, earlier⟩, own a (List.mem_singleton_self a)⟩
    · rintro ⟨⟨solves, earlier⟩, own⟩
      exact ⟨solves, List.forall_mem_append.mpr ⟨earlier, List.forall_mem_singleton.mpr own⟩⟩
  refine ⟨⟨valid.store, valid.reads, ?_⟩, Nat.le_refl _, fun h => Iff.rfl, ?_, ?_⟩
  · exact List.forall_mem_append.mpr ⟨valid.waiting, List.forall_mem_singleton.mpr typed⟩
  · exact fun σ admits => (admits_iff σ).mp admits
  · exact fun σ admits holds => ⟨σ, (admits_iff σ).mpr ⟨admits, holds⟩, fun _ _ => rfl⟩

/-- Solving a constraint adds it as a demand, whichever way it is solved. -/
theorem adding_solve {con : Constraint} (valid : c.Valid) (fits : c.nodes.Fits con)
    (distinct : con.DistinctNames) :
    c.Adding con.Holds (solve con) fun _ c' => c.SameNames c' := by
  have reads := fits.covered.readsBelow
  cases con with
  | bind node term span =>
    exact (adding_bindAt valid distinct (fun _ _ => Iff.rfl) reads).post fun _ _ _ => Stores.names
  | unify left right span =>
    exact (adding_unifyAt valid (fun _ _ => Iff.rfl) reads).post fun _ _ _ => Stores.names
  | call callee args result span =>
    exact adding_solveCall valid reads
  | deref pointer target span =>
    exact adding_solveDeref valid reads
  | null node span =>
    -- the target is the handle that is minted on the spot
    have below : node < c.nodes.size := fits.covered
    have sound : ∀ σ : Assignment, σ node = .pointer (σ c.nodes.size) →
        (Constraint.null node span).Holds σ := fun σ equal => ⟨_, equal⟩
    refine adding_mint valid (fun c' nodes names adds => ?_) sound fun σ ⟨target, equal⟩ => ?_
    · have plain : (Term.pointer c.nodes.size).DistinctNames := trivial
      refine (adding_bindAt adds.valid plain (fun _ _ => Iff.rfl) ?_).post
        fun _ _ _ ends => names.trans ends.names
      rw [nodes, NodeTable.size_mint]
      intro σ σ' agree equal
      rw [Term.ground, ← agree node (Nat.lt_succ_of_lt below),
        ← agree c.nodes.size (Nat.lt_succ_self _)]
      exact equal
    · refine ⟨target, ?_⟩
      rw [Function.update_of_ne below.ne, Function.update_self]
      exact equal
  | access a =>
    refine ending_get ?_
    cases bound : c.store.term? a.record with
    | some known =>
      dsimp only
      exact (adding_solveAccess valid bound reads).post fun _ _ _ => Stores.names
    | none =>
      dsimp only
      exact ⟨valid.adds_waiting (fits.access a rfl), rfl, rfl, rfl⟩
  | repeatedField record field name span => exact adding_refuseAt fun _ _ => id
  | reject error => exact refutes_of_absurd fun _ _ => id

theorem solve_eq_error_of_impossible {con : Constraint} (impossible : con.Impossible) :
    ∃ e c', solve con c = .error e c' := by
  cases con with
  | repeatedField record field name span => exact ⟨_, _, rfl⟩
  | reject error => exact ⟨_, _, rfl⟩
  | bind node term span => exact impossible.elim
  | unify left right span => exact impossible.elim
  | call callee args result span => exact impossible.elim
  | deref pointer target span => exact impossible.elim
  | null node span => exact impossible.elim
  | access a => exact impossible.elim

/-- Solving constraints in order adds all of them. -/
theorem adding_solveAll {cs : List Constraint} (valid : c.Valid)
    (fits : ∀ con ∈ cs, c.nodes.Fits con) (orderly : Constraint.Orderly cs) :
    c.Adding (Constraint.HoldAll · cs) (solveAll cs) fun _ c' => c.SameNames c' := by
  induction cs generalizing c with
  | nil =>
    exact ⟨(valid.adds_of_same rfl rfl rfl).congr fun σ _ =>
      ⟨fun _ => Constraint.holdAll_nil σ, fun _ => trivial⟩, .refl c⟩
  | cons con rest ih =>
    obtain ⟨fitsFirst, fitsRest⟩ := List.forall_mem_cons.mp fits
    obtain ⟨distinct, impossible | orderlyRest⟩ := orderly
    · obtain ⟨e, c', failed⟩ := solve_eq_error_of_impossible (c := c) impossible
      rw [Adding, Ending, solveAll, bind_apply_error failed]
      exact refutes_of_absurd fun σ _ hold =>
        impossible.not_holds σ (Constraint.holdAll_cons.mp hold).1
    · have reads : ReadsBelow c.nodes.size (Constraint.HoldAll · rest) :=
        fun σ σ' agree hold other member =>
          (fitsRest other member).covered.readsBelow agree (hold other member)
      have both := (adding_solve valid fitsFirst distinct).bind (f := fun _ => solveAll rest)
        (fun _ c' adds names =>
          have fits' : ∀ other ∈ rest, c'.nodes.Fits other := fun other member =>
            (fitsRest other member).grow adds.size_le adds.isTyped_iff
          (ih adds.valid fits' orderlyRest).post fun _ _ _ names' => names.trans names') reads
      exact both.congr fun σ _ => Constraint.holdAll_cons.symm

end Steps

end Checker

end TypeInference
