import TypeInference.Proofs.Counterparts
import TypeInference.Proofs.Representation

/-!
# Calls in any order

Calls on a store make demands, and a run of calls succeeds exactly when some assignment meets all of
them. The store that it leaves has just these solutions, whatever the order of the calls, and stores
with the same solutions are read out alike, down to the handles that name unbound classes.
-/

set_option autoImplicit false

namespace TypeInference

/-- A call on a store. -/
inductive Call
  | unify (x y : Handle)
  | bind (x : Handle) (t : Term)
deriving DecidableEq, Repr

namespace Call

/-- Make the call. -/
def run (s : Store) : Call → Report
  | unify x y => s.unify x y
  | bind x t => s.bind x t

/-- A term that is to be bound names no field twice. -/
def DistinctNames : Call → Prop
  | unify .. => True
  | bind _ t => t.DistinctNames

/-- The types meet the demand of a call. -/
def Holds (σ : Assignment) : Call → Prop
  | unify x y => σ x = σ y
  | bind x t => σ x = t.ground σ

private theorem run_decides {s : Store} (sound : s.Sound) {call : Call}
    (distinct : call.DistinctNames) : (call.run s).Decides s call.Holds := by
  cases call with
  | unify x y => exact Store.unify_decides sound x y
  | bind x t => exact Store.bind_decides sound x distinct

theorem built_run {s : Store} (built : s.Built Term.DistinctNames) {call : Call}
    (distinct : call.DistinctNames) : (call.run s).store.Built Term.DistinctNames := by
  cases call with
  | unify x y => exact .unify built x y
  | bind x t => exact .bind built x distinct

end Call

namespace Store

/-- Make calls in order and stop at the first conflict. -/
def runAll (s : Store) : List Call → Except Conflict Store
  | [] => .ok s
  | call :: rest =>
    match (call.run s).conflict? with
    | some conflict => .error conflict
    | none => (call.run s).store.runAll rest

section Runs

variable {s s' : Store} {calls calls' : List Call}

private theorem not_holds_of_runAll (built : s.Built Term.DistinctNames)
    (distinct : ∀ call ∈ calls, call.DistinctNames) {conflict : Conflict}
    (stopped : s.runAll calls = .error conflict) {σ : Assignment} (solves : s.Solves σ) :
    ¬ ∀ call ∈ calls, call.Holds σ := by
  induction calls generalizing s with
  | nil => cases stopped
  | cons call rest ih =>
    obtain ⟨first, others⟩ := List.forall_mem_cons.mp distinct
    have decided := Call.run_decides built.sound first
    rw [List.forall_mem_cons]
    rintro ⟨holds, later⟩
    rw [runAll] at stopped
    cases outcome : (call.run s).conflict? with
    | some clash => exact decided.refuses clash outcome σ solves holds
    | none =>
      rw [outcome] at stopped
      have solves' := (decided.accepts outcome σ).mpr ⟨solves, holds⟩
      exact ih (Call.built_run built first) others stopped solves' later

/-- A run that does not stop leaves the solutions that meet all its demands. -/
theorem solves_runAll (built : s.Built Term.DistinctNames)
    (distinct : ∀ call ∈ calls, call.DistinctNames) (ran : s.runAll calls = .ok s') :
    s'.Built Term.DistinctNames ∧
      ∀ σ, s'.Solves σ ↔ s.Solves σ ∧ ∀ call ∈ calls, call.Holds σ := by
  induction calls generalizing s with
  | nil =>
    cases ran
    exact ⟨built, fun σ => by simp⟩
  | cons call rest ih =>
    obtain ⟨first, others⟩ := List.forall_mem_cons.mp distinct
    have decided := Call.run_decides built.sound first
    rw [runAll] at ran
    cases outcome : (call.run s).conflict? with
    | some clash =>
      rw [outcome] at ran
      cases ran
    | none =>
      rw [outcome] at ran
      obtain ⟨built', solves_iff⟩ := ih (Call.built_run built first) others ran
      refine ⟨built', fun σ => ?_⟩
      rw [solves_iff, decided.accepts outcome, List.forall_mem_cons, and_assoc]

end Runs

section Reading

variable {s s' : Store}

private theorem find_eq_of_forall_eq (sound : s.Sound) {x y : Handle} (unbound : s.term? y = none)
    (equal : ∀ σ, s.Solves σ → σ x = σ y) : s.find x = s.find y := by
  by_contra differ
  have unbound' : s.term? x = none := by
    by_contra bound
    refine (shaped_iff sound.toFormed).mp (fun σ σ' solves solves' => ?_) unbound
    rw [← equal σ solves, ← equal σ' solves']
    exact (shaped_iff sound.toFormed).mpr bound σ σ' solves solves'
  -- the two classes can be given different types
  let ρ : Assignment := Function.update (fun _ => .int) (s.find y) (.pointer .int)
  have same := equal _ (solves_resolve sound.toFormed ρ)
  rw [resolve_of_unbound unbound, resolve_of_unbound unbound'] at same
  simp [Ty.ground, ρ, differ] at same

theorem linked_of_solves_iff (same : ∀ σ, s.Solves σ ↔ s'.Solves σ) :
    Linked (fun _ => True) s s' where
  forth σ solves := ⟨σ, (same σ).mp solves, fun _ _ => rfl⟩
  back σ solves := ⟨σ, (same σ).mpr solves, fun _ _ => rfl⟩

private theorem find_eq_of_matched (sound : s.Sound) (sound' : s'.Sound) (lowest : s.Lowest)
    (lowest' : s'.Lowest) (same : ∀ σ, s.Solves σ ↔ s'.Solves σ) {x y : Handle}
    (matched : Matched (fun _ => True) s s' x y) (unbound : s.term? x = none)
    (unbound' : s'.term? y = none) : s.find x = s'.find y := by
  have equal : ∀ σ, s.Solves σ → σ x = σ y := fun σ solves =>
    matched σ σ solves ((same σ).mp solves) fun _ _ => rfl
  have inClass : s.find (s'.find y) = s.find x := by
    refine find_eq_of_forall_eq sound unbound fun σ solves => ?_
    rw [equal σ solves, ← ((same σ).mp solves).classes y]
  have inClass' : s'.find (s.find x) = s'.find y := by
    refine find_eq_of_forall_eq sound' unbound' fun σ solves => ?_
    rw [← equal σ ((same σ).mpr solves), ← ((same σ).mpr solves).classes x]
  apply Nat.le_antisymm
  · have least := lowest (s'.find y) (by rw [term?, inClass]; exact unbound)
    rwa [inClass] at least
  · have least := lowest' (s.find x) (by rw [term?, inClass']; exact unbound')
    rwa [inClass'] at least

end Reading

end Store

namespace Ty

/-- A variable is compatible with itself only, on either side. -/
theorem eq_var_iff_of_compatible {a b : Ty} (same : a.compatible b) (k : Handle) :
    a = .var k ↔ b = .var k := by
  cases a <;> cases b <;> simp_all [compatible]

private theorem compatibleAll_map_of_zip {f g : Handle → Ty} {xs ys : List Handle}
    (agree : ∀ e ∈ xs.zip ys, (f e.1).compatible (g e.2)) :
    compatibleAll (xs.map f) (ys.map g) := by
  induction xs generalizing ys with
  | nil => simp [compatibleAll]
  | cons x xs ih =>
    cases ys with
    | nil => simp [compatibleAll]
    | cons y ys =>
      obtain ⟨first, others⟩ := List.forall_mem_cons.mp agree
      simp [compatibleAll, first, ih others]

private theorem compatibleFields_of_lookup {fields others : List (String × Ty)}
    (agree : ∀ field ∈ fields, ∃ b, others.lookup field.1 = some b ∧ field.2.compatible b) :
    compatibleFields fields others := by
  induction fields with
  | nil => rfl
  | cons field rest ih =>
    obtain ⟨⟨b, found, same⟩, later⟩ := List.forall_mem_cons.mp agree
    simp [compatibleFields, found, same, ih later]

private theorem compatible_toTy {t u : Term} {parts : List Equation}
    (paired : t.pairUp u = .ok parts) {f g : Handle → Ty}
    (agree : ∀ e ∈ parts, (f e.1).compatible (g e.2)) : (t.toTy f).compatible (u.toTy g) := by
  cases t <;> cases u <;> simp only [Term.pairUp, reduceCtorEq] at paired
  case int.int => rfl
  case pointer.pointer a b =>
    cases paired
    exact agree (a, b) (List.mem_singleton_self _)
  case function.function params result params' result' =>
    split at paired
    · rename_i sameLength
      cases paired
      obtain ⟨inParams, inResult⟩ := List.forall_mem_append.mp agree
      have results := inResult (result, result') (List.mem_singleton_self _)
      simp [Term.toTy, compatible, sameLength, compatibleAll_map_of_zip inParams, results]
    · cases paired
  case record.record fields others =>
    split at paired
    · rename_i sameLength
      split at paired
      · rename_i pairs pairedFields
        cases paired
        simp only [Term.toTy, compatible, List.length_map, sameLength, beq_self_eq_true,
          Bool.true_and]
        refine compatibleFields_of_lookup fun field member => ?_
        obtain ⟨⟨name, h⟩, inFields, rfl⟩ := List.mem_map.mp member
        obtain ⟨other, found⟩ := exists_lookup_of_pairFields pairedFields inFields
        have inPairs := mem_sortByName.mpr ((mem_pairFields pairedFields).mpr ⟨inFields, found⟩)
        refine ⟨g other, ?_, agree (h, other) (List.mem_map.mpr ⟨_, inPairs, rfl⟩)⟩
        rw [lookup_map_types, found]
        rfl
      · cases paired
    · cases paired

end Ty

namespace Store

variable {s s' : Store}

/-- Stores with the same solutions are read out alike. -/
theorem compatible_resolve (sound : s.Sound) (sound' : s'.Sound) (lowest : s.Lowest)
    (lowest' : s'.Lowest) (same : ∀ σ, s.Solves σ ↔ s'.Solves σ) (h : Handle) :
    (s.resolve h).compatible (s'.resolve h) := by
  refine (linked_of_solves_iff same).induction sound sound'
    (P := fun x y => (s.resolve x).compatible (s'.resolve y)) ?_ ?_ h h (matched_self trivial)
  · intro x y matched unbound unbound'
    rw [resolve_of_unbound unbound, resolve_of_unbound unbound',
      find_eq_of_matched sound sound' lowest lowest' same matched unbound unbound']
    simp [Ty.compatible]
  · intro x y t u parts found found' paired agree
    rw [resolve_of_bound sound.rooted sound.acyclic found,
      resolve_of_bound sound'.rooted sound'.acyclic found']
    exact Ty.compatible_toTy paired agree

private theorem runAll_ok_of_perm {calls calls' : List Call} (perm : calls.Perm calls')
    (distinct : ∀ call ∈ calls, call.DistinctNames) :
    (∃ s, runAll {} calls = .ok s) → ∃ s, runAll {} calls' = .ok s := by
  rintro ⟨s, ran⟩
  obtain ⟨built, solves_iff⟩ := solves_runAll .empty distinct ran
  obtain ⟨start, demands⟩ := (solves_iff _).mp (solves_resolve built.formed fun _ => .int)
  cases ran' : runAll {} calls' with
  | ok s' => exact ⟨s', rfl⟩
  | error conflict =>
    have distinct' : ∀ call ∈ calls', call.DistinctNames := fun call member =>
      distinct call (perm.mem_iff.mpr member)
    exact absurd (fun call member => demands call (perm.mem_iff.mpr member))
      (not_holds_of_runAll .empty distinct' ran' start)

/-- Calls made from the start, up to the first conflict, all succeed in one order exactly when they
do in another, and then every handle is read out as the same type up to the order of fields, where
unbound classes have the same names. -/
theorem runAll_perm {calls calls' : List Call} (perm : calls.Perm calls')
    (distinct : ∀ call ∈ calls, call.DistinctNames) :
    ((∃ s, runAll {} calls = .ok s) ↔ ∃ s, runAll {} calls' = .ok s) ∧
      ∀ s s', runAll {} calls = .ok s → runAll {} calls' = .ok s' → ∀ h,
        (s.resolve h).compatible (s'.resolve h) ∧ (s'.resolve h).compatible (s.resolve h) ∧
          ∀ k, s.resolve h = .var k ↔ s'.resolve h = .var k := by
  have distinct' : ∀ call ∈ calls', call.DistinctNames := fun call member =>
    distinct call (perm.mem_iff.mpr member)
  refine ⟨⟨runAll_ok_of_perm perm distinct, runAll_ok_of_perm perm.symm distinct'⟩, ?_⟩
  intro s s' ran ran' h
  obtain ⟨built, solves_iff⟩ := solves_runAll .empty distinct ran
  obtain ⟨built', solves_iff'⟩ := solves_runAll .empty distinct' ran'
  have same : ∀ σ, s.Solves σ ↔ s'.Solves σ := by
    intro σ
    rw [solves_iff, solves_iff']
    simp only [perm.mem_iff]
  have forth := compatible_resolve built.sound built'.sound built.lowest built'.lowest same h
  have back := compatible_resolve built'.sound built.sound built'.lowest built.lowest
    (fun σ => (same σ).symm) h
  exact ⟨forth, back, Ty.eq_var_iff_of_compatible forth⟩

/-- Two records that list their fields differently meet before they are bound and after it. The
class of the field that stays unknown is named by its lowest handle in either order. -/
theorem runAll_perm_records :
    let calls := [Call.unify 3 0, .bind 3 (.record [("g", 4), ("f", 5)]),
      .bind 0 (.record [("f", 1), ("g", 2)]), .bind 5 .int]
    let calls' := [Call.bind 0 (.record [("f", 1), ("g", 2)]), .bind 5 .int,
      .bind 3 (.record [("g", 4), ("f", 5)]), .unify 3 0]
    (∀ call ∈ calls, call.DistinctNames) ∧ calls.Perm calls' ∧
      (runAll {} calls).toOption.map (·.resolve 3) = some (.record [("g", .var 2), ("f", .int)]) ∧
      (runAll {} calls').toOption.map (·.resolve 3) = some (.record [("f", .int), ("g", .var 2)]) ∧
      ∀ s s', runAll {} calls = .ok s → runAll {} calls' = .ok s' →
        ∀ h, (s.resolve h).compatible (s'.resolve h) := by
  intro calls calls'
  have distinct : ∀ call ∈ calls, call.DistinctNames := by
    simp [calls, Call.DistinctNames, Term.DistinctNames]
  have perm : calls.Perm calls' := by decide
  exact ⟨distinct, perm, by decide +kernel, by decide +kernel, fun s s' ran ran' h =>
    ((runAll_perm perm distinct).2 s s' ran ran' h).1⟩

end Store

end TypeInference
