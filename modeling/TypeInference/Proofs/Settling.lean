import TypeInference.Checker.Finish
import TypeInference.Proofs.Congruence
import TypeInference.Proofs.Driving
import TypeInference.Proofs.Gathering

/-!
# Settling the accesses in waiting

Rounds over the accesses in waiting end with accesses to unbound records only. What they settle
does not depend on the order in which constraints came: checkers that took the same constraints in
and have settled all they could permit the same types of common handles, and wait for the same
accesses.
-/

set_option autoImplicit false

namespace TypeInference

namespace Store

variable {s s' : Store} {accesses left : List Access} {G : Assignment → Prop} {a : Access}

/-- Solutions of a store that agree with accesses: each access holds in all of them, or else they
leave the shape of its record open. -/
structure Suited (s : Store) (accesses : List Access) (G : Assignment → Prop) : Prop where
  inhabited : ∃ σ, G σ
  solves : ∀ σ, G σ → s.Solves σ
  agrees : ∀ a ∈ accesses, (∀ σ, G σ → a.Holds σ) ∨ ¬ Shaped G a.record

theorem Suited.mono (suited : s.Suited accesses G) (subset : left ⊆ accesses)
    (solves : ∀ σ, G σ → s'.Solves σ) : s'.Suited left G :=
  ⟨suited.inhabited, solves, fun a member => suited.agrees a (subset member)⟩

private theorem Suited.holds (suited : s.Suited accesses G) (formed : s.Formed)
    (member : a ∈ accesses) (bound : s.term? a.record ≠ none) {σ : Assignment} (inG : G σ) :
    a.Holds σ := by
  refine (suited.agrees a member).resolve_right (fun unshaped => unshaped ?_) σ inG
  intro τ τ' inG inG'
  exact (shaped_iff formed).mpr bound τ τ' (suited.solves τ inG) (suited.solves τ' inG')

/-- The record of an access is unbound. -/
def Awaits (s : Store) (a : Access) : Bool := (s.term? a.record).isNone

theorem awaits_iff : s.Awaits a ↔ s.term? a.record = none := Option.isNone_iff_eq_none

private theorem Provides.not_awaits (provides : s.Provides a) : ¬ s.Awaits a := by
  obtain ⟨fields, field, bound, -⟩ := provides
  rw [awaits_iff, bound]
  exact Option.some_ne_none _

private theorem Extends.awaits (extension : s.Extends s') (awaits : s'.Awaits a) : s.Awaits a := by
  rw [awaits_iff] at awaits ⊢
  cases found : s.term? a.record with
  | none => rfl
  | some t =>
    obtain ⟨t', found', -⟩ := extension.outlines _ t found
    rw [awaits] at found'
    cases found'

private theorem Extends.filter_awaits (extension : s.Extends s')
    (equal : accesses.filter s.Awaits = left.filter s.Awaits) :
    accesses.filter s'.Awaits = left.filter s'.Awaits := by
  have twice : ∀ xs : List Access, xs.filter s'.Awaits = (xs.filter s.Awaits).filter s'.Awaits := by
    intro xs
    rw [List.filter_filter]
    refine List.filter_congr fun a _ => ?_
    cases awaits : s'.Awaits a with
    | false => rfl
    | true => rw [extension.awaits awaits, Bool.and_self]
  rw [twice accesses, equal, ← twice left]

end Store

namespace Checker

variable {c c' c'' : Checker} {accesses left middle later : List Access} {a : Access}
  {cs cs' : List Constraint}

/-- Accesses were tried, and `left` still wait. What is not left is provided, nothing that was
provided is lost, and solutions that agree with the accesses are solutions still. -/
structure Round (c : Checker) (accesses left : List Access) (c' : Checker) : Prop where
  nodes : c'.nodes = c.nodes
  sound : c'.store.Sound
  built : c.WellBuilt → c'.WellBuilt
  grown : c.store.Extends c'.store
  solves : ∀ σ, c'.store.Solves σ → c.store.Solves σ
  keeps : ∀ a, c.store.Provides a → c'.store.Provides a
  settled : ∀ a ∈ accesses, a ∈ left ∨ c'.store.Provides a
  awaited : accesses.filter c'.store.Awaits = left.filter c'.store.Awaits
  suited : ∀ G, c.store.Suited accesses G → c'.store.Suited left G

namespace Round

private theorem idle (sound : c.store.Sound) : c.Round [] [] c where
  nodes := rfl
  sound := sound
  built := id
  grown := .refl c.store
  solves _ := id
  keeps _ := id
  settled _ member := by cases member
  awaited := rfl
  suited _ := id

private theorem suited_append (round : c.Round accesses middle c') {G : Assignment → Prop}
    (suited : c.store.Suited (accesses ++ later) G) : c'.store.Suited (middle ++ later) G := by
  have tried := round.suited G (suited.mono (List.subset_append_left _ _) suited.solves)
  refine ⟨suited.inhabited, tried.solves, List.forall_mem_append.mpr ⟨tried.agrees, ?_⟩⟩
  exact fun a member => suited.agrees a (List.mem_append_right _ member)

private theorem trans (first : c.Round accesses middle c')
    (second : c'.Round (middle ++ later) left c'') : c.Round (accesses ++ later) left c'' where
  nodes := second.nodes.trans first.nodes
  sound := second.sound
  built built := second.built (first.built built)
  grown := first.grown.trans second.grown
  solves σ solves := first.solves σ (second.solves σ solves)
  keeps a provides := second.keeps a (first.keeps a provides)
  settled := by
    obtain ⟨again, more⟩ := List.forall_mem_append.mp second.settled
    refine List.forall_mem_append.mpr ⟨fun a member => ?_, more⟩
    rcases first.settled a member with waits | provides
    · exact again a waits
    · exact .inr (second.keeps a provides)
  awaited := by
    rw [← second.awaited, List.filter_append, List.filter_append,
      second.grown.filter_awaits first.awaited]
  suited G suited := second.suited G (first.suited_append suited)

private theorem next (first : c.Round accesses middle c') (second : c'.Round middle left c'') :
    c.Round accesses left c'' := by
  rw [← List.append_nil middle] at second
  have both := first.trans second
  rwa [List.append_nil] at both

private theorem put_off (round : c.Round accesses left c') (a : Access) :
    c.Round (a :: accesses) (a :: left) c' where
  nodes := round.nodes
  sound := round.sound
  built := round.built
  grown := round.grown
  solves := round.solves
  keeps := round.keeps
  settled := List.forall_mem_cons.mpr ⟨.inl List.mem_cons_self, fun b member =>
    (round.settled b member).imp_left (List.mem_cons_of_mem a)⟩
  awaited := by rw [List.filter_cons, List.filter_cons, round.awaited]
  suited G suited := by
    have rest := round.suited G (suited.mono (List.subset_cons_self _ _) suited.solves)
    refine ⟨suited.inhabited, rest.solves, List.forall_mem_cons.mpr ⟨?_, rest.agrees⟩⟩
    exact suited.agrees a List.mem_cons_self

/-- The accesses left are those whose records are unbound in the end, in the order given. -/
theorem eq_filter (round : c.Round accesses left c')
    (stuck : ∀ a ∈ left, c'.store.term? a.record = none) :
    left = accesses.filter c'.store.Awaits := by
  rw [round.awaited]
  exact (List.filter_eq_self.mpr fun a waits => Store.awaits_iff.mpr (stuck a waits)).symm

private theorem readsBelow (round : c.Round accesses left c')
    (stuck : ∀ a ∈ left, c'.store.term? a.record = none) {n : Nat}
    (reads : ReadsBelow n c.store.Solves) (accessed : ∀ a ∈ accesses, ReadsBelow n a.Holds) :
    ReadsBelow n c'.store.Solves := by
  intro σ σ' agree solves
  -- the solutions that remain agree with the accesses, and still do with `σ'` among them
  have suited : c.store.Suited accesses fun τ => c'.store.Solves τ ∨ τ = σ' := by
    refine ⟨⟨σ, .inl solves⟩, ?_, fun a member => ?_⟩
    · rintro τ (solved | rfl)
      · exact round.solves τ solved
      · exact reads agree (round.solves σ solves)
    · rcases round.settled a member with waits | provides
      · refine .inr fun shaped => (Store.shaped_iff round.sound.toFormed).mp ?_ (stuck a waits)
        exact fun τ τ' solved solved' => shaped τ τ' (.inl solved) (.inl solved')
      · refine .inl ?_
        rintro τ (solved | rfl)
        · exact provides.holds solved
        · exact accessed a member agree (provides.holds solves)
  exact (round.suited _ suited).solves σ' (.inr rfl)

end Round

theorem solveAccess_of_field {known : Term} {field : Handle}
    (found : known.field? a.field = some field) :
    solveAccess a known c = unifyAt a.span a.node field c := by
  cases known with
  | record fields =>
    rw [Term.field?] at found
    rw [solveAccess, get_bind_apply]
    simp only [found]
  | int | pointer _ | function _ _ => cases found

theorem solveAccess_of_missing {known : Term} (missing : known.field? a.field = none) :
    ∃ conflict d, solveAccess a known c = .error (.conflict conflict a.span) d := by
  cases known with
  | record fields =>
    rw [Term.field?] at missing
    rw [solveAccess, get_bind_apply]
    simp only [missing]
    exact ⟨_, _, rfl⟩
  | int | pointer _ | function _ _ => exact ⟨_, _, rfl⟩

private theorem ending_solveAccess (sound : c.store.Sound) {known : Term}
    (bound : c.store.term? a.record = some known) :
    c.Ending (solveAccess a known) (fun _ c' => c.Round [a] [] c') fun e _ =>
      e.isMismatch ∧ ∀ G, ¬ c.store.Suited [a] G := by
  have isBound : c.store.term? a.record ≠ none := by
    rw [bound]
    exact Option.some_ne_none known
  have holds : ∀ G, c.store.Suited [a] G → ∀ σ, G σ →
      (known.field? a.field).map σ = some (σ a.node) := fun G suited σ inG =>
    (Access.holds_iff ((suited.solves σ inG).terms _ _ bound)).mp
      (suited.holds sound.toFormed (List.mem_singleton_self a) isBound inG)
  cases found : known.field? a.field with
  | none =>
    obtain ⟨conflict, d, failed⟩ := solveAccess_of_missing (c := c) found
    rw [Ending, failed]
    refine ⟨rfl, fun G suited => ?_⟩
    obtain ⟨σ, inG⟩ := suited.inhabited
    have absent := holds G suited σ inG
    rw [found] at absent
    cases absent
  | some field =>
    have decided := Store.unify_decides sound a.node field
    -- what agrees with the access meets the equation between node and field
    have equal : ∀ G, c.store.Suited [a] G → ∀ σ, G σ → σ a.node = σ field := by
      intro G suited σ inG
      have present := holds G suited σ inG
      rw [found] at present
      exact (Option.some.inj present).symm
    refine Ending.of_eq (ending_absorb (fun accepted log => ?_) fun conflict refused log => ?_)
      (solveAccess_of_field found)
    · have provides := Store.provides_unify sound accepted bound found
      refine ⟨rfl, decided.sound, fun built => .unify built a.node field,
        Store.extends_solveAll sound [(a.node, field)], ?_, ?_, ?_, ?_, ?_⟩
      · exact fun σ solves => ((decided.accepts accepted σ).mp solves).1
      · exact fun b earlier => earlier.solveAll sound accepted
      · exact List.forall_mem_singleton.mpr (.inr provides)
      · exact List.filter_eq_nil_iff.mpr (List.forall_mem_singleton.mpr provides.not_awaits)
      · intro G suited
        exact suited.mono (List.nil_subset _) fun σ inG =>
          (decided.accepts accepted σ).mpr ⟨suited.solves σ inG, equal G suited σ inG⟩
    · refine ⟨rfl, fun G suited => ?_⟩
      obtain ⟨σ, inG⟩ := suited.inhabited
      exact decided.refuses conflict refused σ (suited.solves σ inG) (equal G suited σ inG)

private theorem ending_retry (sound : c.store.Sound) (accesses : List Access) :
    c.Ending (retry accesses) (fun left c' => c.Round accesses left c') fun e _ =>
      e.isMismatch ∧ ∀ G, ¬ c.store.Suited accesses G := by
  induction accesses generalizing c with
  | nil => exact .idle sound
  | cons a rest ih =>
    refine ending_get ?_
    cases bound : c.store.term? a.record with
    | some known =>
      have first := (ending_solveAccess sound bound).imp
        (F := fun e _ => e.isMismatch ∧ ∀ G, ¬ c.store.Suited (a :: rest) G) (fun _ _ => id) ?_
      · refine first.bind fun _ c' round => (ih round.sound).imp
          (fun _ _ second => round.trans second) fun _ _ fails => ⟨fails.1, ?_⟩
        exact fun G suited => fails.2 G (round.suited_append suited)
      · refine fun _ _ fails => ⟨fails.1, fun G suited => fails.2 G ?_⟩
        exact suited.mono (List.cons_subset_cons a (List.nil_subset rest)) suited.solves
    | none =>
      refine Ending.bind ((ih sound).imp (fun _ _ => id) fun _ _ fails => ⟨fails.1, ?_⟩)
        fun left c' round => ending_pure (round.put_off a)
      exact fun G suited => fails.2 G (suited.mono (List.subset_cons_self a rest) suited.solves)

theorem retry_of_unbound (unbound : ∀ a ∈ accesses, c.store.term? a.record = none) :
    retry accesses c = .ok accesses c := by
  induction accesses with
  | nil => rfl
  | cons a rest ih =>
    obtain ⟨first, others⟩ := List.forall_mem_cons.mp unbound
    rw [retry, get_bind_apply, first]
    exact bind_apply_ok (ih others)

/-- A round that gives back as many accesses as it took has found no record bound. -/
theorem length_retry (ran : retry accesses c = .ok left c') :
    left.length ≤ accesses.length ∧
      (left.length = accesses.length → ∀ a ∈ accesses, c.store.term? a.record = none) := by
  induction accesses generalizing c left with
  | nil =>
    cases ran
    exact ⟨Nat.le_refl _, fun _ a member => (by cases member)⟩
  | cons a rest ih =>
    rw [retry, get_bind_apply] at ran
    cases bound : c.store.term? a.record with
    | some known =>
      rw [bound] at ran
      obtain ⟨_, d, -, others⟩ := exists_of_bind_eq_ok ran
      have fewer := (ih others).1
      rw [List.length_cons]
      exact ⟨by omega, fun same => by omega⟩
    | none =>
      rw [bound] at ran
      obtain ⟨later, d, others, ⟨⟩⟩ := exists_of_bind_eq_ok ran
      obtain ⟨length_le, unbound⟩ := ih others
      refine ⟨Nat.succ_le_succ length_le, fun same => List.forall_mem_cons.mpr ⟨bound, ?_⟩⟩
      exact unbound (Nat.succ.inj same)

private theorem retry_of_not_fewer (ran : retry accesses c = .ok left c')
    (same : ¬ left.length < accesses.length) :
    c' = c ∧ left = accesses ∧ ∀ a ∈ accesses, c.store.term? a.record = none := by
  obtain ⟨length_le, stuck⟩ := length_retry ran
  have unbound := stuck (Nat.le_antisymm length_le (Nat.not_lt.mp same))
  rw [retry_of_unbound unbound] at ran
  cases ran
  exact ⟨rfl, rfl, unbound⟩

/-- Rounds end in accesses to unbound records, or no solutions agree with the accesses. -/
theorem ending_settle (sound : c.store.Sound) (accesses : List Access) :
    c.Ending (settle accesses) (fun left c' => c.Round accesses left c' ∧
      ∀ a ∈ left, c'.store.term? a.record = none) fun e _ =>
        e.isMismatch ∧ ∀ G, ¬ c.store.Suited accesses G := by
  induction accesses using settle.induct generalizing c with
  | case1 accesses ih =>
    rw [settle]
    refine (ending_retry sound accesses).ran.bind fun left c' ends => ?_
    obtain ⟨round, ran⟩ := ends
    split
    · rename_i fewer
      exact (ih left fewer round.sound).imp (fun _ _ ends => ⟨round.next ends.1, ends.2⟩)
        fun _ _ fails => ⟨fails.1, fun G suited => fails.2 G (round.suited G suited)⟩
    · rename_i same
      obtain ⟨rfl, rfl, stuck⟩ := retry_of_not_fewer ran same
      exact ⟨round, stuck⟩

private theorem Allows.suited {n : Nat} {G : Assignment → Prop} (allows : c.Allows n G)
    (suits : ∀ a ∈ accesses, (Constraint.access a).Suits n G) :
    c.store.Suited accesses fun τ => c.store.Solves τ ∧ ∃ σ, G σ ∧ ∀ h < n, τ h = σ h where
  inhabited := by
    obtain ⟨σ, inG⟩ := allows.inhabited
    obtain ⟨τ, solves, agree⟩ := allows.counterpart σ inG
    exact ⟨τ, solves, σ, inG, agree⟩
  solves _ := And.left
  agrees a member := by
    obtain ⟨covered, holds | ⟨b, equal, unshaped⟩⟩ := suits a member
    · refine .inl ?_
      rintro τ ⟨-, σ, inG, agree⟩
      exact covered.holds_congr (fun h below => (agree h below).symm) (holds σ inG)
    · cases equal
      refine .inr fun shaped => unshaped fun σ σ' inG inG' => ?_
      obtain ⟨τ, solves, agree⟩ := allows.counterpart σ inG
      obtain ⟨τ', solves', agree'⟩ := allows.counterpart σ' inG'
      rw [← agree _ covered.2, ← agree' _ covered.2]
      exact shaped τ τ' ⟨solves, σ, inG, agree⟩ ⟨solves', σ', inG', agree'⟩

/-- The second checker has settled what it could: the accesses that it heeds without keeping them in
waiting hold, and the records of the others are unbound. -/
structure Settles (c c' : Checker) : Prop where
  valid : c'.Valid
  size_le : c.nodes.size ≤ c'.nodes.size
  isTyped_iff : ∀ h, c'.nodes.IsTyped h ↔ c.nodes.IsTyped h
  solves : ∀ σ, c'.store.Solves σ → c.store.Solves σ
  subset : c'.waiting ⊆ c.waiting
  heeds : ∀ a ∈ c.waiting, c'.Heeds (.access a)
  stuck : ∀ a ∈ c'.waiting, c'.store.term? a.record = none
  allows : ∀ n G, c.Allows n G → (∀ a ∈ c.waiting, (Constraint.access a).Suits n G) → c'.Allows n G

private theorem Round.settles (round : c.Round c.waiting left c') (valid : c.Valid)
    (stuck : ∀ a ∈ left, c'.store.term? a.record = none) :
    c.Settles { c' with waiting := left } := by
  have subset : left ⊆ c.waiting := by
    rw [round.eq_filter stuck]
    exact List.filter_subset_self _
  have reads : ReadsBelow c'.nodes.size c'.store.Solves :=
    round.nodes ▸ round.readsBelow stuck valid.reads fun _ => valid.readsBelow_access
  refine ⟨⟨round.sound, reads, fun a member => ?_⟩, round.nodes.symm ▸ Nat.le_refl _,
    fun h => by rw [round.nodes], round.solves, subset, fun a member => ?_, stuck,
    fun n G allows suits => ?_⟩
  · rw [round.nodes]
    exact valid.waiting a (subset member)
  · rcases round.settled a member with waits | provides
    · exact .inr ⟨a, waits, rfl⟩
    · exact .inl fun σ solves => provides.holds solves
  · have kept := round.suited _ (allows.suited suits)
    refine ⟨round.nodes.symm ▸ allows.size_le, allows.inhabited, fun σ inG => ?_⟩
    obtain ⟨τ, solves, agree⟩ := allows.counterpart σ inG
    exact ⟨τ, kept.solves τ ⟨solves, σ, inG, agree⟩, agree⟩

/-- Settling all accesses leaves none in waiting, or ends in a conflict, or is unresolved. -/
theorem ending_settleAll (valid : c.Valid) :
    c.Ending settleAll (fun _ c' => c.Settles c' ∧ c'.waiting = []) fun e c' =>
      (e.isMismatch ∧
        ∀ n G, c.Allows n G → ¬ ∀ a ∈ c.waiting, (Constraint.access a).Suits n G) ∨
      c.Settles c' ∧ c'.waiting ≠ [] ∧
        ∃ node kind type span, e = .unresolved node kind type span := by
  refine ending_get (Ending.bind ((ending_settle valid.store c.waiting).imp (fun _ _ => id) ?_) ?_)
  · exact fun _ _ fails => .inl ⟨fails.1, fun n G allows suits => fails.2 _ (allows.suited suits)⟩
  · rintro left c' ⟨round, stuck⟩
    have settles := round.settles valid stuck
    cases left with
    | nil => exact ⟨settles, rfl⟩
    | cons a rest => exact .inr ⟨settles, List.cons_ne_nil _ _, _, _, _, _, rfl⟩

/-- Constraints were taken in when nothing waited, and what waits now cannot be settled. -/
structure Exhausts (c : Checker) (cs : List Constraint) (c' : Checker) : Prop
    extends c.Gathered cs c' where
  stuck : ∀ a ∈ c'.waiting, c'.store.term? a.record = none

theorem Settles.exhausts (settles : c'.Settles c'') (gathered : c.Gathered cs c')
    (start : c.waiting = []) : c.Exhausts cs c'' where
  valid := settles.valid
  size_le := gathered.size_le.trans settles.size_le
  isTyped_iff h := (settles.isTyped_iff h).trans (gathered.isTyped_iff h)
  solves σ solves := gathered.solves σ (settles.solves σ solves)
  heeds con member := by
    rcases gathered.heeds con member with holds | ⟨a, waits, rfl⟩
    · exact .inl fun σ solves => holds σ (settles.solves σ solves)
    · exact settles.heeds a waits
  waiting := by rw [start]; exact List.nil_subset _
  origin a member := gathered.origin a (settles.subset member)
  allows n G allows suits := settles.allows n G (gathered.allows n G allows suits) fun _ member =>
    suits _ (gathered.access_mem start member)
  stuck := settles.stuck

namespace Exhausts

/-- The solutions that are left suit all constraints. -/
theorem suits (exhausts : c.Exhausts cs c') (covered : ∀ con ∈ cs, con.Over (· < c.nodes.size)) :
    ∀ con ∈ cs, con.Suits c.nodes.size c'.store.Solves := by
  intro con member
  refine ⟨covered con member, (exhausts.heeds con member).imp_right ?_⟩
  rintro ⟨a, waits, rfl⟩
  refine ⟨a, rfl, fun shaped => ?_⟩
  exact (Store.shaped_iff exhausts.valid.store.toFormed).mp shaped (exhausts.stuck a waits)

theorem allows_solves (exhausts : c.Exhausts cs c') :
    c.Allows c.nodes.size c'.store.Solves where
  size_le := Nat.le_refl _
  inhabited := ⟨_, Store.solves_resolve exhausts.valid.store.toFormed fun _ => .int⟩
  counterpart σ solves := ⟨σ, exhausts.solves σ solves, fun _ _ => rfl⟩

/-- Checkers that exhaust the same constraints permit the same types of the handles they started
with. -/
theorem linked (exhausts : c.Exhausts cs c') (exhausts' : c.Exhausts cs' c'')
    (same : ∀ con, con ∈ cs ↔ con ∈ cs') (covered : ∀ con ∈ cs, con.Over (· < c.nodes.size)) :
    Store.Linked (· < c.nodes.size) c'.store c''.store where
  forth σ solves := by
    have allows := exhausts'.allows _ _ exhausts.allows_solves fun con member =>
      exhausts.suits covered con ((same con).mpr member)
    obtain ⟨σ', solves', agree⟩ := allows.counterpart σ solves
    exact ⟨σ', solves', fun h below => (agree h below).symm⟩
  back σ solves := by
    have covered' : ∀ con ∈ cs', con.Over (· < c.nodes.size) := fun con member =>
      covered con ((same con).mpr member)
    have allows := exhausts.allows _ _ exhausts'.allows_solves fun con member =>
      exhausts'.suits covered' con ((same con).mp member)
    exact allows.counterpart σ solves

end Exhausts

end Checker

private theorem Ground.shape_of_field? {g type : Ground} {name : String}
    (found : g.field? name = some type) : g.shape = "record" := by
  cases g with
  | record fields => rfl
  | int | pointer _ | function _ _ => cases found

namespace Checker.Exhausts

variable {c c' c'' : Checker} {cs cs' : List Constraint}

/-- Checkers that exhaust the same constraints wait for the same accesses. -/
theorem waiting_subset (exhausts : c.Exhausts cs c') (exhausts' : c.Exhausts cs' c'')
    (same : ∀ con, con ∈ cs ↔ con ∈ cs') (covered : ∀ con ∈ cs, con.Over (· < c.nodes.size))
    (start : c.waiting = []) : c'.waiting ⊆ c''.waiting := by
  intro a waits
  have own := exhausts.access_mem start waits
  rcases exhausts'.heeds _ ((same _).mp own) with holds | ⟨b, waits', equal⟩
  · -- a record with a field has a shape, so it would be bound in both stores
    have shaped : Shaped c''.store.Solves a.record := fun σ σ' solves solves' =>
      (Ground.shape_of_field? (holds σ solves)).trans
        (Ground.shape_of_field? (holds σ' solves')).symm
    have linked := exhausts.linked exhausts' same covered
    have unbound := (linked.unbound_iff exhausts.valid.store.toFormed exhausts'.valid.store.toFormed
      (Store.matched_self (covered _ own).2)).mp (exhausts.stuck a waits)
    exact absurd unbound ((Store.shaped_iff exhausts'.valid.store.toFormed).mp shaped)
  · cases equal
    exact waits'

end Checker.Exhausts

end TypeInference
