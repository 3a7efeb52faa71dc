import TypeInference.Proofs.Symmetry

/-!
# Stores only grow

No call takes an entry out of a store or writes over one, not even a call that ends in a conflict
halfway. Classes therefore never come apart. A class may get the term of another class in place of
its own, but only one of the same outline.
-/

set_option autoImplicit false

namespace TypeInference

/-- What two terms share when they pair up: the constructor, the number of parameters of a function
and the names of the fields of a record. -/
inductive Outline
  | int
  | pointer
  | function (params : Nat)
  | record (names : Finset String)
deriving DecidableEq

/-- The outline of a term, which says nothing of the handles inside. -/
def Term.outline : Term → Outline
  | int => .int
  | pointer _ => .pointer
  | function params _ => .function params.length
  | record fields => .record (fields.map Prod.fst).toFinset

/-- Terms that pair up have one outline. -/
theorem Term.outline_eq_of_pairUp {t u : Term} {parts : List Equation}
    (distinct : t.DistinctNames) (paired : t.pairUp u = .ok parts) : t.outline = u.outline := by
  cases t <;> cases u <;> simp only [pairUp, reduceCtorEq] at paired
  case int.int => rfl
  case pointer.pointer a b => rfl
  case function.function params result params' result' =>
    split at paired
    · rename_i sameLength
      rw [outline, outline, sameLength]
    · cases paired
  case record.record fields others =>
    split at paired
    · rename_i sameLength
      split at paired
      · rename_i pairs pairedFields
        have names := names_perm_of_pairFields distinct sameLength pairedFields
        rw [outline, outline, List.toFinset_eq_of_perm _ _ names]
      · cases paired
    · cases paired

namespace Store

/-- The second store has every entry of the first. Its classes are unions of those of the first, and
what was bound is bound to a term of the same outline. -/
structure Extends (s s' : Store) : Prop where
  parents : ∀ x parent : Handle, s.parents[x]? = some parent → s'.parents[x]? = some parent
  terms : ∀ (x : Handle) (t : Term), s.terms[x]? = some t → s'.terms[x]? = some t
  classes : ∀ x y, s.sameClass x y → s'.sameClass x y
  outlines : ∀ x t, s.term? x = some t → ∃ t', s'.term? x = some t' ∧ t'.outline = t.outline

variable {s s' s'' : Store}

theorem Extends.refl (s : Store) : s.Extends s where
  parents _ _ := id
  terms _ _ := id
  classes _ _ := id
  outlines _ t found := ⟨t, found, rfl⟩

theorem Extends.trans (first : s.Extends s') (second : s'.Extends s'') : s.Extends s'' where
  parents x parent found := second.parents x parent (first.parents x parent found)
  terms x t found := second.terms x t (first.terms x t found)
  classes x y same := second.classes x y (first.classes x y same)
  outlines x t found := by
    obtain ⟨t', found', outline⟩ := first.outlines x t found
    obtain ⟨t'', found'', outline'⟩ := second.outlines x t' found'
    exact ⟨t'', found'', outline'.trans outline⟩

section Link

variable {x y child root : Handle}

/-- A link adds an entry at a root. Only the term of the class that is put below the other can be
lost from sight. -/
private theorem extends_link (rooted : s.Rooted) (below : s.IsRoot child) (above : s.IsRoot root)
    (ne : child ≠ root) (kept : ∀ t, s.terms[child]? = some t →
      ∃ t', s.terms[root]? = some t' ∧ t'.outline = t.outline) : s.Extends (s.link child root) where
  parents _ _ found := getElem?_insert_of_fresh below found
  terms _ _ := id
  classes x y same := by
    have equal : s.find x = s.find y := by simpa [sameClass] using same
    simp only [sameClass, find_link rooted below above ne, equal, beq_self_eq_true]
  outlines x t found := by
    rw [term?] at found
    by_cases inChild : s.find x = child
    · obtain ⟨t', found', outline⟩ := kept t (inChild ▸ found)
      exact ⟨t', by rw [term?, find_link rooted below above ne, if_pos inChild]; exact found',
        outline⟩
    · exact ⟨t, by rw [term?, find_link rooted below above ne, if_neg inChild]; exact found, rfl⟩

private theorem Meets.extends_join (rooted : s.Rooted) (met : s.Meets x y (.join child root)) :
    s.Extends (s.link child root) := by
  cases met with
  | join sides unbound apart =>
    refine extends_link rooted sides.below sides.above sides.ne fun t found => ?_
    rw [unbound] at found
    cases found

private theorem Meets.extends_merge (sound : s.Sound) {parts : List Equation}
    (met : s.Meets x y (.merge child root parts)) : s.Extends (s.link child root) := by
  cases met with
  | @merge _ _ t u _ sides left right paired apart =>
    have outline := Term.outline_eq_of_pairUp (sound.distinct _ t left) paired
    refine extends_link sound.rooted sides.below sides.above sides.ne fun v found => ?_
    rcases sides.order with ⟨rfl, rfl⟩ | ⟨rfl, rfl⟩
    · obtain rfl := Option.some.inj (left.symm.trans found)
      exact ⟨u, right, outline.symm⟩
    · obtain rfl := Option.some.inj (right.symm.trans found)
      exact ⟨t, left, outline⟩

end Link

/-- Every step of unification extends the store, so a run does, wherever it ends. -/
theorem Run.extends {equations : List Equation} {r : Report} (run : Run s equations r)
    (sound : s.Sound) : s.Extends r.store := by
  induction run with
  | done s => exact .refl s
  | same met tail ih => exact ih sound
  | join met tail ih =>
    have step := met.extends_join sound.rooted
    cases met with
    | join sides unbound apart => exact step.trans (ih (sides.sound_link sound apart))
  | merge met tail ih =>
    have step := met.extends_merge sound
    cases met with
    | merge sides left right paired apart => exact step.trans (ih (sides.sound_link sound apart))
  | clash met => exact .refl _

theorem extends_solveAll (sound : s.Sound) (equations : List Equation) :
    s.Extends (s.solveAll equations).store :=
  (run_solveAll sound.rooted equations).extends sound

/-- Binding a root that has no term adds an entry for it. -/
theorem extends_assign {root : Handle} (unbound : s.terms[root]? = none) (t : Term) :
    s.Extends (s.assign root t) where
  parents _ _ := id
  terms _ _ found := getElem?_insert_of_fresh unbound found
  classes x y same := by simpa only [sameClass, find_assign] using same
  outlines x u found := by
    refine ⟨u, ?_, rfl⟩
    rw [term?, find_assign]
    exact getElem?_insert_of_fresh unbound found

private theorem extends_bind (sound : s.Sound) (x : Handle) (t : Term) :
    s.Extends (s.bind x t).store := by
  rw [bind]
  split
  · exact .refl s
  · split
    · rename_i unbound
      exact extends_assign unbound t
    · split
      · exact .refl s
      · exact extends_solveAll sound _

theorem extends_call (sound : s.Sound) (call : Call) : s.Extends (call.run s).store := by
  cases call with
  | unify x y => exact extends_solveAll sound [(x, y)]
  | bind x t => exact extends_bind sound x t

private theorem extends_of_mem_states (built : s.Built Term.DistinctNames) {calls : List Call}
    (distinct : ∀ call ∈ calls, call.DistinctNames) (member : s' ∈ s.states calls) :
    s.Extends s' := by
  induction calls generalizing s with
  | nil =>
    rw [List.mem_singleton.mp member]
    exact .refl s
  | cons call rest ih =>
    obtain ⟨first, others⟩ := List.forall_mem_cons.mp distinct
    rcases List.mem_cons.mp member with rfl | later
    · exact .refl s'
    · exact (extends_call built.sound call).trans (ih (Call.built_run built first) others later)

private theorem pairwise_states (built : s.Built Term.DistinctNames) {calls : List Call}
    (distinct : ∀ call ∈ calls, call.DistinctNames) : (s.states calls).Pairwise Extends := by
  induction calls generalizing s with
  | nil => exact List.pairwise_singleton _ _
  | cons call rest ih =>
    obtain ⟨first, others⟩ := List.forall_mem_cons.mp distinct
    have built' := Call.built_run built first
    refine List.pairwise_cons.mpr ⟨fun s' member => ?_, ih built' others⟩
    exact (extends_call built.sound call).trans (extends_of_mem_states built' others member)

/-- Whatever a call asks for and however it ends, the store that it leaves extends the one before.
Of any two stores that a run goes through, the later one extends the earlier. -/
theorem run_extends {s : Store} (built : s.Built Term.DistinctNames) :
    (∀ call : Call, s.Extends (call.run s).store) ∧
      ∀ calls : List Call, (∀ call ∈ calls, call.DistinctNames) →
        (s.states calls).Pairwise Extends :=
  ⟨extends_call built.sound, fun _ distinct => pairwise_states built distinct⟩

/-- Two records are merged, and the fields of the first name with them, before the fields of the
second name clash. The later record has lost its own term to the other one. -/
theorem run_extends_half_merged :
    let s := [(0, Term.record [("g", 1), ("f", 2)]), (3, .record [("f", 4), ("g", 5)]),
      (1, .function [] 6), (5, .function [2] 7)].foldl (fun s (x, t) => (s.bind x t).store)
        ({} : Store)
    s.Built Term.DistinctNames ∧ (s.unify 3 0).conflict?.isSome ∧
      s.term? 3 = some (.record [("f", 4), ("g", 5)]) ∧
      (s.unify 3 0).store.term? 3 = some (.record [("g", 1), ("f", 2)]) ∧
      (s.unify 3 0).store.sameClass 2 4 ∧ s.Extends (s.unify 3 0).store ∧
      (s.states [.unify 3 0, .bind 3 .int, .bind 4 .int]).Pairwise Extends := by
  intro s
  have built : s.Built Term.DistinctNames :=
    .bind (.bind (.bind (.bind .empty 0 (by decide)) 3 (by decide)) 1 (by decide)) 5 (by decide)
  obtain ⟨calls, runs⟩ := run_extends built
  exact ⟨built, by decide +kernel, by decide +kernel, by decide +kernel, by decide +kernel,
    calls (.unify 3 0), runs _ (by simp [Call.DistinctNames, Term.DistinctNames])⟩

end Store

end TypeInference
