import TypeInference.Proofs.Calls
import TypeInference.Proofs.Containment

/-!
# The two sides of an equation

An equation may be turned around. Its sides are then decided alike, a conflict is told from the
other side, and the equations that a merge leaves are turned around in turn, in the same order. So
the store is the same after every step, and after every call of a run.
-/

set_option autoImplicit false

namespace TypeInference

/-- The same reason, told from the other side. -/
def Reason.mirror : Reason → Reason
  | arity expected found => arity found expected
  | reason => reason

/-- The same conflict, told from the other side. A type that contains itself has one side only. -/
def Conflict.mirror : Conflict → Conflict
  | mismatch reason left right expected found => mismatch reason.mirror right left found expected
  | infinite node nodeType type => infinite node nodeType type

/-- The same event, told from the other side. -/
def Event.mirror : Event → Event
  | clashed conflict span => clashed conflict.mirror span
  | event => event

/-- What the turned equation does to the store. -/
def Meeting.mirror : Meeting → Meeting
  | merge child root parts => merge child root (parts.map Prod.swap)
  | clash conflict => clash conflict.mirror
  | meeting => meeting

/-- The report of work on turned equations. -/
def Report.mirror (r : Report) : Report where
  store := r.store
  events := r.events.map Event.mirror
  conflict? := r.conflict?.map Conflict.mirror

private theorem Report.mirror_after_linked (child root : Handle) (r : Report) :
    (r.after (.linked child root)).mirror = r.mirror.after (.linked child root) := rfl

section Sorting

variable {α β : Type}

private theorem insertByName_map (f : α → β) (item : String × α) (items : List (String × α)) :
    insertByName (item.map id f) (items.map (Prod.map id f)) =
      (insertByName item items).map (Prod.map id f) := by
  induction items with
  | nil => rfl
  | cons first rest ih =>
    by_cases before : item.1 ≤ first.1
    · simp [insertByName, before]
    · simp [insertByName, before, ih]

private theorem sortByName_map (f : α → β) (items : List (String × α)) :
    sortByName (items.map (Prod.map id f)) = (sortByName items).map (Prod.map id f) := by
  induction items with
  | nil => rfl
  | cons first rest ih => rw [List.map_cons, sortByName, ih, insertByName_map, sortByName]

private theorem insertByName_perm (item : String × α) (items : List (String × α)) :
    (insertByName item items).Perm (item :: items) := by
  induction items with
  | nil => exact .refl _
  | cons first rest ih =>
    rw [insertByName]
    split
    · exact .refl _
    · exact (ih.cons first).trans (.swap item first rest)

theorem sortByName_perm (items : List (String × α)) : (sortByName items).Perm items := by
  induction items with
  | nil => exact .refl _
  | cons first rest ih => exact (insertByName_perm first _).trans (ih.cons first)

private theorem pairwise_insertByName {item : String × α} {items : List (String × α)}
    (sorted : items.Pairwise fun a b => a.1 ≤ b.1) :
    (insertByName item items).Pairwise fun a b => a.1 ≤ b.1 := by
  induction items with
  | nil => exact List.pairwise_singleton _ _
  | cons first rest ih =>
    obtain ⟨least, restSorted⟩ := List.pairwise_cons.mp sorted
    rw [insertByName]
    split
    · rename_i before
      refine List.pairwise_cons.mpr
        ⟨List.forall_mem_cons.mpr ⟨before, fun other member => ?_⟩, sorted⟩
      exact before.trans (least other member)
    · rename_i after
      refine List.pairwise_cons.mpr ⟨fun other member => ?_, ih restSorted⟩
      rcases mem_insertByName.mp member with rfl | inRest
      · exact (not_le.mp after).le
      · exact least other inRest

private theorem pairwise_sortByName (items : List (String × α)) :
    (sortByName items).Pairwise fun a b => a.1 ≤ b.1 := by
  induction items with
  | nil => exact .nil
  | cons first rest ih => exact pairwise_insertByName ih

/-- Items of distinct names have one order by name. -/
theorem sortByName_eq_of_perm {items others : List (String × α)} (perm : items.Perm others)
    (distinct : (items.map Prod.fst).Nodup) : sortByName items = sortByName others := by
  have sameItems : (sortByName items).Perm (sortByName others) :=
    (sortByName_perm items).trans (perm.trans (sortByName_perm others).symm)
  refine sameItems.eq_of_pairwise ?_ (pairwise_sortByName items) (pairwise_sortByName others)
  intro a b inItems inOthers le ge
  exact List.inj_on_of_nodup_map distinct (mem_sortByName.mp inItems)
    (perm.mem_iff.mpr (mem_sortByName.mp inOthers)) (le_antisymm le ge)

end Sorting

section Pairing

variable {fields others : List (String × Handle)} {pairs : List (String × Equation)}

private theorem nodup_pairFields (distinct : (fields.map Prod.fst).Nodup)
    (paired : pairFields fields others = some pairs) : pairs.Nodup := by
  refine List.Nodup.of_map Prod.fst ?_
  rw [names_pairFields paired]
  exact distinct

private theorem pairFields_comm (distinct : (fields.map Prod.fst).Nodup)
    (distinct' : (others.map Prod.fst).Nodup) (sameLength : fields.length = others.length)
    (paired : pairFields fields others = some pairs) :
    ∃ pairs', pairFields others fields = some pairs' ∧
      pairs'.Perm (pairs.map (Prod.map id Prod.swap)) := by
  have names := names_perm_of_pairFields distinct sameLength paired
  cases paired' : pairFields others fields with
  | none =>
    obtain ⟨name, h, member, missing⟩ := exists_unpaired_of_pairFields paired'
    have inFields := names.mem_iff.mpr (List.mem_map_of_mem (f := Prod.fst) member)
    obtain ⟨h', found⟩ := exists_lookup_of_mem_names inFields
    rw [missing] at found
    cases found
  | some pairs' =>
    refine ⟨pairs', rfl, ?_⟩
    have injective : Function.Injective (Prod.map (id : String → String)
        (Prod.swap : Equation → Equation)) := Function.injective_id.prodMap Prod.swap_injective
    rw [List.perm_ext_iff_of_nodup (nodup_pairFields distinct' paired')
      ((nodup_pairFields distinct paired).map injective)]
    rintro ⟨name, other, h⟩
    have turned : (name, other, h) = Prod.map id Prod.swap (name, h, other) := rfl
    rw [turned, List.mem_map_of_injective injective, ← turned, mem_pairFields paired',
      mem_pairFields paired]
    constructor
    · rintro ⟨inOthers, found⟩
      exact ⟨mem_of_lookup found, lookup_of_mem distinct' inOthers⟩
    · rintro ⟨inFields, found⟩
      exact ⟨mem_of_lookup found, lookup_of_mem distinct inFields⟩

private theorem Term.pairUp_comm {t u : Term} (distinct : t.DistinctNames)
    (distinct' : u.DistinctNames) :
    u.pairUp t = match t.pairUp u with
      | .ok parts => .ok (parts.map Prod.swap)
      | .error reason => .error reason.mirror := by
  cases t <;> cases u <;> try rfl
  case function.function params result params' result' =>
    by_cases sameLength : params.length = params'.length
    · simp [pairUp, sameLength, List.zip_swap]
    · simp [pairUp, sameLength, Ne.symm sameLength, Reason.mirror]
  case record.record fields others =>
    by_cases sameLength : fields.length = others.length
    · cases paired : pairFields fields others with
      | some pairs =>
        obtain ⟨pairs', paired', perm⟩ := pairFields_comm distinct distinct' sameLength paired
        have sorted := sortByName_eq_of_perm perm
          (by rw [names_pairFields paired']; exact distinct')
        rw [sortByName_map] at sorted
        simp [pairUp, sameLength, paired, paired', sorted]
      | none =>
        cases paired' : pairFields others fields with
        | some pairs' =>
          obtain ⟨pairs, found, -⟩ := pairFields_comm distinct' distinct sameLength.symm paired'
          rw [paired] at found
          cases found
        | none => simp [pairUp, sameLength, paired, paired', Reason.mirror]
    · simp [pairUp, sameLength, Ne.symm sameLength, Reason.mirror]

end Pairing

namespace Store

variable {s : Store}

/-- The sides of an equation may be exchanged: the checks of a bound pair are made in the other
order, but they cannot both fail. -/
private theorem meet_comm (sound : s.Sound) (x y : Handle) : s.meet y x = (s.meet x y).mirror := by
  by_cases equal : s.find x = s.find y
  · simp [meet, equal, Meeting.mirror]
  have equal' := Ne.symm equal
  cases left : s.terms[s.find x]? with
  | none =>
    cases right : s.terms[s.find y]? with
    | none => simp [meet, equal, equal', left, right, Meeting.mirror, max_comm, min_comm]
    | some u =>
      by_cases inside : s.occurs (s.find x) u
      · simp [meet, equal, equal', left, right, inside, Meeting.mirror, infinite, Conflict.mirror]
      · simp [meet, equal, equal', left, right, inside, Meeting.mirror]
  | some t =>
    cases right : s.terms[s.find y]? with
    | none =>
      by_cases inside : s.occurs (s.find y) t
      · simp [meet, equal, equal', left, right, inside, Meeting.mirror, infinite, Conflict.mirror]
      · simp [meet, equal, equal', left, right, inside, Meeting.mirror]
    | some u =>
      have turned := Term.pairUp_comm (sound.distinct _ t left) (sound.distinct _ u right)
      have notBoth := not_occurs_both sound.toFormed left right
      cases paired : t.pairUp u with
      | error reason =>
        rw [paired] at turned
        simp [meet, equal, equal', left, right, paired, turned, Meeting.mirror, mismatch,
          Conflict.mirror]
      | ok parts =>
        rw [paired] at turned
        by_cases inside : s.occurs (s.find y) t
        · simp [meet, equal, equal', left, right, paired, turned, inside, notBoth inside,
            Meeting.mirror, infinite, Conflict.mirror]
        · by_cases inside' : s.occurs (s.find x) u
          · simp [meet, equal, equal', left, right, paired, turned, inside, inside',
              Meeting.mirror, infinite, Conflict.mirror]
          · simp [meet, equal, equal', left, right, paired, turned, inside, inside',
              Meeting.mirror, max_comm, min_comm]

private theorem solveWith_comm {merged : Store → List Equation → Report}
    (each : ∀ s equations, s.Sound →
      merged s (equations.map Prod.swap) = (merged s equations).mirror)
    (equations : List Equation) : ∀ s : Store, s.Sound →
      s.solveWith merged (equations.map Prod.swap) = (s.solveWith merged equations).mirror := by
  induction equations with
  | nil => exact fun s _ => rfl
  | cons equation rest ih =>
    intro s sound
    obtain ⟨x, y⟩ := equation
    have decided := meets_meet sound.rooted x y
    rw [List.map_cons, Prod.swap_prod_mk, solveWith, solveWith, meet_comm sound]
    cases met : s.meet x y with
    | same => exact ih s sound
    | join child root =>
      rw [met] at decided
      cases decided with
      | join sides unbound apart =>
        simp only [Meeting.mirror, Report.mirror_after_linked]
        rw [ih _ (sides.sound_link sound apart)]
    | merge child root parts =>
      rw [met] at decided
      cases decided with
      | merge sides left right paired apart =>
        simp only [Meeting.mirror, Report.mirror_after_linked]
        rw [← List.map_append, each _ _ (sides.sound_link sound apart)]
    | clash conflict => rfl

private theorem solve_comm (n : Nat) : ∀ (s : Store) (equations : List Equation), s.Sound →
    solve n s (equations.map Prod.swap) = (solve n s equations).mirror := by
  induction n with
  | zero => exact fun s equations => solveWith_comm (fun _ _ _ => rfl) equations s
  | succ n ih => exact fun s equations => solveWith_comm ih equations s

private theorem unify_eq_mirror (sound : s.Sound) (x y : Handle) :
    s.unify y x = (s.unify x y).mirror :=
  solve_comm _ s [(x, y)] sound

end Store

/-- One call in place of another: the same, or an equation turned around. -/
inductive Call.Turns : Call → Call → Prop
  | same (call : Call) : Turns call call
  | turned (x y : Handle) : Turns (.unify x y) (.unify y x)

namespace Store

/-- The stores that a run goes through, from the given one on. A conflict does not end it. -/
def states (s : Store) : List Call → List Store
  | [] => [s]
  | call :: rest => s :: (call.run s).store.states rest

private theorem states_eq_of_turns {s : Store} (built : s.Built Term.DistinctNames)
    {calls calls' : List Call} (distinct : ∀ call ∈ calls, call.DistinctNames)
    (turns : List.Forall₂ Call.Turns calls calls') : s.states calls = s.states calls' := by
  induction turns generalizing s with
  | nil => rfl
  | @cons call call' rest rest' turn _ ih =>
    obtain ⟨first, others⟩ := List.forall_mem_cons.mp distinct
    have sameStore : (call.run s).store = (call'.run s).store := by
      cases turn with
      | same => rfl
      | turned x y =>
        rw [Call.run, Call.run, unify_eq_mirror built.sound x y]
        rfl
    rw [states, states, ← sameStore, ih (Call.built_run built first) others]

/-- The two sides of an equation may be exchanged: this leaves the same store, whether it succeeds
or not, and a conflict is told from the other side. So any equations of a run may be turned around,
and it goes through the same stores. -/
theorem unify_comm {s : Store} (built : s.Built Term.DistinctNames) :
    (∀ x y, (s.unify y x).store = (s.unify x y).store ∧
      (s.unify y x).conflict? = (s.unify x y).conflict?.map Conflict.mirror) ∧
    ∀ calls calls', (∀ call ∈ calls, call.DistinctNames) → List.Forall₂ Call.Turns calls calls' →
      s.states calls = s.states calls' := by
  refine ⟨fun x y => ?_, fun calls calls' distinct turns => states_eq_of_turns built distinct turns⟩
  rw [unify_eq_mirror built.sound x y]
  exact ⟨rfl, rfl⟩

/-- Records with their fields in different orders, of which the first by name is merged before the
second one clashes over the number of parameters. The run goes on from there. -/
theorem unify_comm_records :
    let s := [(0, Term.record [("g", 1), ("f", 2)]), (3, .record [("f", 4), ("g", 5)]),
      (1, .function [] 6), (5, .function [2] 7)].foldl (fun s (x, t) => (s.bind x t).store)
        ({} : Store)
    s.Built Term.DistinctNames ∧
      ((s.unify 0 3).conflict?.bind Conflict.reason?) = some (.arity 0 1) ∧
      ((s.unify 3 0).conflict?.bind Conflict.reason?) = some (.arity 1 0) ∧
      (s.unify 0 3).store.sameClass 2 4 ∧ (s.unify 3 0).store = (s.unify 0 3).store ∧
      s.states [.unify 0 3, .bind 4 .int] = s.states [.unify 3 0, .bind 4 .int] := by
  intro s
  have built : s.Built Term.DistinctNames :=
    .bind (.bind (.bind (.bind .empty 0 (by decide)) 3 (by decide)) 1 (by decide)) 5 (by decide)
  obtain ⟨turned, run⟩ := unify_comm built
  exact ⟨built, by decide +kernel, by decide +kernel, by decide +kernel, (turned 0 3).1,
    run _ _ (by simp [Call.DistinctNames, Term.DistinctNames])
      (.cons (.turned 0 3) (.cons (.same _) .nil))⟩

end Store

end TypeInference
