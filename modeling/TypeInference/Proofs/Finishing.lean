import TypeInference.Proofs.Declarations
import TypeInference.Proofs.Defaulting
import TypeInference.Proofs.Settling

/-!
# How a check ends

Retrying the accesses in waiting admits the same types as before, and ends with accesses to unbound
records only. What is left then is refused, or taken to be integers, which never fails.
-/

set_option autoImplicit false

namespace TypeInference

namespace Checker

variable {c c' c'' : Checker}

/-- What remains of a checker whose accesses were settled: the ones in waiting have unbound
records. -/
structure Rests (c c' : Checker) : Prop where
  adds : c.Adds (fun _ => True) c'
  stuck : ∀ a ∈ c'.waiting, c'.store.term? a.record = none

private theorem Admits.allows_suits {σ : Assignment} (admits : c.Admits σ) (valid : c.Valid) :
    c.Allows c.nodes.size (· = σ) ∧
      ∀ a ∈ c.waiting, (Constraint.access a).Suits c.nodes.size (· = σ) := by
  constructor
  · refine ⟨Nat.le_refl _, ⟨σ, rfl⟩, ?_⟩
    rintro τ rfl
    exact ⟨τ, admits.store, fun _ _ => rfl⟩
  · intro a member
    obtain ⟨node, record⟩ := valid.waiting a member
    refine ⟨⟨node.lt_size, record.lt_size⟩, .inl ?_⟩
    rintro _ rfl
    exact admits.waiting a member

private theorem Settles.rests (settles : c.Settles c') (valid : c.Valid) : c.Rests c' := by
  refine ⟨⟨settles.valid, settles.size_le, settles.isTyped_iff, ?_, ?_⟩, settles.stuck⟩
  · refine fun σ admits => ⟨⟨settles.solves σ admits.store, fun a member => ?_⟩, trivial⟩
    rcases settles.heeds a member with holds | ⟨b, waits, equal⟩
    · exact holds σ admits.store
    · cases equal
      exact admits.waiting a waits
  · intro σ admits _
    obtain ⟨allows, suits⟩ := admits.allows_suits valid
    obtain ⟨σ', solves, agree⟩ := (settles.allows _ _ allows suits).counterpart σ rfl
    refine ⟨σ', ⟨solves, fun a waits => ?_⟩, agree⟩
    have member := settles.subset waits
    exact valid.readsBelow_access member (fun h below => (agree h below).symm)
      (admits.waiting a member)

/-- Settling all accesses refutes every typing, or leaves none in waiting, or is unresolved. -/
theorem ending_settleAll_rests (valid : c.Valid) :
    c.Ending settleAll (fun _ c' => c.Rests c' ∧ c'.waiting = []) fun e c' =>
      c.Refutes (fun _ => True) e ∨ c.Rests c' ∧ c'.waiting ≠ [] ∧
        ∃ node kind type span, e = .unresolved node kind type span := by
  refine (ending_settleAll valid).imp (fun _ c' ends => ⟨ends.1.rests valid, ends.2⟩) ?_
  rintro e c' (⟨-, unsuited⟩ | ⟨settles, waits, unresolved⟩)
  · refine .inl (refutes_of_absurd fun σ admits _ => ?_)
    obtain ⟨allows, suits⟩ := admits.allows_suits valid
    exact unsuited _ _ allows suits
  · exact .inr ⟨settles.rests valid, waits, unresolved⟩

theorem admits_iff_of_done (done : c.waiting = []) {σ : Assignment} :
    c.Admits σ ↔ c.store.Solves σ :=
  ⟨Admits.store, fun solves => ⟨solves, fun _ member => (by rw [done] at member; cases member)⟩⟩

end Checker

namespace Store

variable {s : Store} {h : Handle}

/-- There are unbound roots exactly where a variable is read out. -/
theorem isEmpty_unresolvedRoots (formed : s.Formed) :
    (s.unresolvedRoots h).isEmpty = (s.resolve h).isResolved := by
  rw [Bool.eq_iff_iff, List.isEmpty_iff, List.eq_nil_iff_forall_not_mem,
    isResolved_resolve_iff formed]
  exact forall_congr' fun k => by rw [mem_unresolvedRoots formed.rooted, not_and]

private theorem isResolved_iff_determines (sound : s.Sound) :
    (s.resolve h).isResolved ↔ s.Determines h := by
  rw [isResolved_resolve_iff sound.toFormed, determines_iff sound]

end Store

namespace Checker

variable {c c' : Checker}

/-- What a policy does once all accesses are settled. -/
def applyPolicy : Policy → List Handle → CheckM Unit
  | .reject, typed => rejectUnresolved typed
  | .defaultToInt, typed => typed.forM defaultNode

theorem applyPolicy_reject (formed : c.store.Formed) (typed : List Handle) :
    applyPolicy .reject typed c =
      match typed.find? fun h => !(c.store.resolve h).isResolved with
      | some h => .error (c.unresolved h) c
      | none => .ok () c := by
  rw [applyPolicy, rejectUnresolved, get_bind_apply]
  simp only [Store.isEmpty_unresolvedRoots formed]
  cases typed.find? fun h => !(c.store.resolve h).isResolved with
  | some h => rfl
  | none => rfl

section Finish

variable (ran : settleAll c = .ok () c')

include ran

theorem finish_eq (policy : Policy) :
    finish policy c = (applyPolicy policy c'.nodes.typed >>= fun _ => do
      emit (.finished c'.nodes.typed.length)
      let d ← get
      return { nodes := d.nodes, store := d.store, functions := d.functions }) c' := by
  rw [finish, bind_apply_ok ran, get_bind_apply]
  cases policy with
  | reject => rfl
  | defaultToInt => rfl

/-- The answer is read off what the policy leaves. -/
theorem finish_eq_ok (policy : Policy) {d : Checker}
    (ran' : applyPolicy policy c'.nodes.typed c' = .ok () d) :
    finish policy c = .ok { nodes := d.nodes, store := d.store, functions := d.functions }
      { d with log := d.log.push (.finished c'.nodes.typed.length) } := by
  rw [finish_eq ran, bind_apply_ok ran']
  rfl

end Finish

end Checker

theorem typeOf_eq_some {t : Typing} {h : Handle} (typed : t.nodes.IsTyped h) :
    t.typeOf h = some (t.store.resolve h) := if_pos typed

theorem typeOf_eq_none {t : Typing} {h : Handle} (untyped : ¬ t.nodes.IsTyped h) :
    t.typeOf h = none := if_neg untyped

/-- The answer of a run, whatever checker it leaves. -/
def answer : EStateM.Result TypeError Checker Typing → Except TypeError Typing
  | .ok typing _ => .ok typing
  | .error e _ => .error e

/-- What a check can find out about types. -/
inductive Verdict
  | accepted | mismatched | unresolved
deriving DecidableEq, Repr

/-- The verdict of an answer; faults of the tree are no verdict. -/
def verdict? : Except TypeError Typing → Option Verdict
  | .ok _ => some .accepted
  | .error (.unresolved ..) => some .unresolved
  | .error e => if e.isMismatch then some .mismatched else none

theorem verdict?_of_mismatch {e : TypeError} (mismatch : e.isMismatch) :
    verdict? (.error e) = some .mismatched := by
  cases e with
  | conflict conflict span => rfl
  | unresolved node kind type span => cases mismatch
  | unboundName name node span => cases mismatch
  | duplicateName name node span => cases mismatch
  | unassigned kind span => cases mismatch

theorem exists_unresolved_of_verdict {r : Except TypeError Typing}
    (unresolved : verdict? r = some .unresolved) :
    ∃ node kind type span, r = .error (.unresolved node kind type span) := by
  cases r with
  | ok typing => cases unresolved
  | error e =>
    cases e with
    | unresolved node kind type span => exact ⟨node, kind, type, span, rfl⟩
    | conflict | unboundName | duplicateName | unassigned =>
      simp [verdict?, TypeError.isMismatch] at unresolved

namespace Checker

/-- The ways in which the policy ends the check of a checker with nothing in waiting. -/
inductive Finishes (c : Checker) (policy : Policy) : Except TypeError Typing → Prop
  /-- A typed node is not determined. -/
  | ambiguous {h node : Handle} {kind : NodeKind} {type : String} {span : Span}
      (rejects : policy = .reject) (typed : c.nodes.IsTyped h)
      (undetermined : ¬ c.store.Determines h) :
      Finishes c policy (.error (.unresolved node kind type span))
  /-- All typed nodes are determined; only defaults narrow the solutions. -/
  | typed {d : Checker} {functions : Std.TreeMap String Handle} (defaults : c.Defaults d)
      (determines : ∀ h, c.nodes.IsTyped h → d.store.Determines h)
      (kept : policy = .reject → d.store = c.store) :
      Finishes c policy (.ok { nodes := d.nodes, store := d.store, functions })

/-- How a check ends once all accesses are settled. -/
theorem finishes_finish {policy : Policy} {c c' : Checker} (valid : c'.Valid)
    (ran : settleAll c = .ok () c') : c'.Finishes policy (answer (finish policy c)) := by
  cases policy with
  | reject =>
    have applied := applyPolicy_reject valid.store.toFormed c'.nodes.typed
    cases found : c'.nodes.typed.find? fun h => !(c'.store.resolve h).isResolved with
    | some h =>
      rw [found] at applied
      rw [finish_eq ran, bind_apply_error applied]
      refine .ambiguous rfl (NodeTable.mem_typed.mp (List.mem_of_find?_eq_some found)) ?_
      rw [← Store.isResolved_iff_determines valid.store]
      simpa using List.find?_some found
    | none =>
      rw [found] at applied
      rw [finish_eq_ok ran .reject applied]
      refine .typed (.refl valid) (fun h typed => ?_) fun _ => rfl
      rw [← Store.isResolved_iff_determines valid.store]
      simpa using List.find?_eq_none.mp found h (NodeTable.mem_typed.mpr typed)
  | defaultToInt =>
    obtain ⟨d, applied, defaults, determines⟩ := exists_defaults_nodes valid fun h member =>
      (NodeTable.mem_typed.mp member).lt_size
    rw [finish_eq_ok ran .defaultToInt applied]
    exact .typed defaults (fun h typed => determines h (NodeTable.mem_typed.mpr typed)) nofun

end Checker

/-- The checker that has seen the whole program admits exactly its typings. -/
abbrev Gathers (table : NodeTable) (q : Program) (c : Checker) : Prop :=
  Checker.Adds { nodes := table } (fun σ => q.WellTyped Ground.algebra σ) c

/-- The ways in which the check of a numbered program can end. -/
inductive Concludes (table : NodeTable) (q : Program) (policy : Policy) :
    Except TypeError Typing → Prop
  /-- A demand was found that no typing meets, or a name that is declared twice. -/
  | refuted {e : TypeError}
      (refutes : Checker.Refutes { nodes := table } (fun σ => q.WellTyped Ground.algebra σ) e) :
      Concludes table q policy (.error e)
  /-- The records of some accesses never became known. -/
  | stuck {c : Checker} {node : Handle} {kind : NodeKind} {type : String} {span : Span}
      (gathers : Gathers table q c) (waits : c.waiting ≠ [])
      (unbound : ∀ a ∈ c.waiting, c.store.term? a.record = none) :
      Concludes table q policy (.error (.unresolved node kind type span))
  /-- A typed node is not determined. -/
  | ambiguous {c : Checker} {h node : Handle} {kind : NodeKind} {type : String} {span : Span}
      (gathers : Gathers table q c) (done : c.waiting = []) (typed : table.IsTyped h)
      (undetermined : ¬ c.store.Determines h) :
      Concludes table q policy (.error (.unresolved node kind type span))
  /-- All typed nodes are determined; only defaults narrow the types that the program admits. -/
  | typed {c d : Checker} {functions : Std.TreeMap String Handle} (gathers : Gathers table q c)
      (done : c.waiting = []) (defaults : c.Defaults d)
      (determines : ∀ h, table.IsTyped h → d.store.Determines h)
      (kept : policy = .reject → d.store = c.store) :
      Concludes table q policy (.ok { nodes := d.nodes, store := d.store, functions })

namespace Checker

variable {table : NodeTable} {q : Program} {policy : Policy} {c c' : Checker}

theorem Rests.gathers (rests : c.Rests c') (gathers : Gathers table q c) : Gathers table q c' :=
  (gathers.trans rests.adds (readsBelow_true _)).congr (by simp)

private theorem concludes_finish (gathers : Gathers table q c) :
    Concludes table q policy (answer (finish policy c)) := by
  rcases (ending_settleAll_rests gathers.valid).cases with ⟨e, c₁, ran, ends⟩ | ⟨_, c₁, ran, ends⟩
  · rw [finish, bind_apply_error ran]
    rcases ends with refutes | ⟨rests, waits, node, kind, type, span, rfl⟩
    · refine .refuted (refutes.imp fun absurd σ admits typed => ?_)
      obtain ⟨σ', admits', -⟩ := gathers.extension σ admits typed
      exact absurd σ' admits' trivial
    · exact .stuck (rests.gathers gathers) waits rests.stuck
  · obtain ⟨rests, done⟩ := ends
    have gathers₁ := rests.gathers gathers
    have finishes : c₁.Finishes policy (answer (finish policy c)) :=
      finishes_finish gathers₁.valid ran
    generalize answer (finish policy c) = outcome at finishes ⊢
    cases finishes with
    | ambiguous rejects typed undetermined =>
      exact .ambiguous gathers₁ done ((gathers₁.isTyped_iff _).mp typed) undetermined
    | typed defaults determines kept =>
      exact .typed gathers₁ done defaults
        (fun h typed => determines h ((gathers₁.isTyped_iff h).mpr typed)) kept

end Checker

theorem check_eq_answer (policy : Policy) (q : Program) (table : NodeTable) :
    check policy q table =
      answer ((Checker.checkProgram q >>= fun _ => Checker.finish policy) { nodes := table }) := rfl

/-- Every check of a numbered program ends in one of these ways. -/
theorem concludes_check {p q : Program} {table : NodeTable}
    (assigned : p.assignIds = .ok (q, table)) (policy : Policy) :
    Concludes table q policy (check policy q table) := by
  have adding := Checker.adding_checkProgram (Program.numbered_of_assignIds assigned)
    (Program.nodup_handles_of_assignIds assigned)
  rw [check_eq_answer]
  rcases adding.cases with ⟨e, c, ran, refutes⟩ | ⟨_, c, ran, gathers, -⟩
  · rw [Checker.bind_apply_error ran]
    exact .refuted refutes
  · rw [Checker.bind_apply_ok ran]
    exact Checker.concludes_finish gathers

end TypeInference
