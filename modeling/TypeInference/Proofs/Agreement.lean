import TypeInference.Proofs.Calls
import TypeInference.Proofs.Freedom

/-!
# Equations that hold already

Handles that are read out alike have one type under every solution, so an equation between them
succeeds and takes no solution away: the store may be linked up further, but it is read out as
before. Where the two types have no variables, nothing else succeeds.
-/

set_option autoImplicit false

namespace TypeInference

namespace Ty

private theorem forall_zip_of_compatibleAll {f g : Handle → Ty} {xs ys : List Handle}
    (agree : compatibleAll (xs.map f) (ys.map g)) :
    ∀ e ∈ xs.zip ys, (f e.1).compatible (g e.2) := by
  induction xs generalizing ys with
  | nil => simp
  | cons x xs ih =>
    cases ys with
    | nil => simp
    | cons y ys =>
      rw [List.map_cons, List.map_cons, compatibleAll, Bool.and_eq_true] at agree
      exact List.forall_mem_cons.mpr ⟨agree.1, ih agree.2⟩

private theorem exists_lookup_of_compatibleFields {fields others : List (String × Ty)}
    (agree : compatibleFields fields others) :
    ∀ field ∈ fields, ∃ b, others.lookup field.1 = some b ∧ field.2.compatible b := by
  induction fields with
  | nil => simp
  | cons field rest ih =>
    rw [compatibleFields, Bool.and_eq_true] at agree
    obtain ⟨first, later⟩ := agree
    refine List.forall_mem_cons.mpr ⟨?_, ih later⟩
    cases found : others.lookup field.1 with
    | none => simp [found] at first
    | some b => exact ⟨b, rfl, by simpa [found] using first⟩

private theorem exists_pairUp_of_compatible {t u : Term} {f g : Handle → Ty}
    (agree : (t.toTy f).compatible (u.toTy g)) :
    ∃ parts, t.pairUp u = .ok parts ∧ ∀ e ∈ parts, (f e.1).compatible (g e.2) := by
  cases t <;> cases u <;> simp only [Term.toTy, compatible, Bool.false_eq_true] at agree
  case int.int => exact ⟨[], rfl, by simp⟩
  case pointer.pointer a b => exact ⟨[(a, b)], rfl, by simpa using agree⟩
  case function.function params result params' result' =>
    simp only [List.length_map, Bool.and_eq_true, beq_iff_eq] at agree
    obtain ⟨⟨sameLength, inParams⟩, results⟩ := agree
    refine ⟨_, if_pos sameLength, List.forall_mem_append.mpr ⟨?_, ?_⟩⟩
    · exact forall_zip_of_compatibleAll inParams
    · exact List.forall_mem_singleton.mpr results
  case record.record fields others =>
    simp only [List.length_map, Bool.and_eq_true, beq_iff_eq] at agree
    obtain ⟨sameLength, inFields⟩ := agree
    have partner : ∀ name h, (name, h) ∈ fields →
        ∃ other, others.lookup name = some other ∧ (f h).compatible (g other) := by
      intro name h member
      obtain ⟨b, found, same⟩ := exists_lookup_of_compatibleFields inFields (name, f h)
        (List.mem_map.mpr ⟨(name, h), member, rfl⟩)
      rw [lookup_map_types] at found
      obtain ⟨other, found', rfl⟩ := Option.map_eq_some_iff.mp found
      exact ⟨other, found', same⟩
    cases paired : pairFields fields others with
    | none =>
      obtain ⟨name, h, member, missing⟩ := exists_unpaired_of_pairFields paired
      obtain ⟨other, found, -⟩ := partner name h member
      rw [missing] at found
      cases found
    | some pairs =>
      refine ⟨(sortByName pairs).map Prod.snd, by simp [Term.pairUp, sameLength, paired], ?_⟩
      intro e member
      obtain ⟨⟨name, h, other⟩, inPairs, rfl⟩ := List.mem_map.mp member
      obtain ⟨inFields, found⟩ := (mem_pairFields paired).mp (mem_sortByName.mp inPairs)
      obtain ⟨other', found', same⟩ := partner name h inFields
      obtain rfl := Option.some.inj (found.symm.trans found')
      exact same

end Ty

private theorem Term.exists_pairUp_self {t : Term} (distinct : t.DistinctNames) :
    ∃ parts, t.pairUp t = .ok parts ∧ ∀ e ∈ parts, e.1 = e.2 := by
  cases paired : t.pairUp t with
  | error reason =>
    exact absurd rfl (Term.ground_ne_of_pairUp paired distinct distinct (fun _ => .int) _)
  | ok parts =>
    refine ⟨parts, rfl, fun e member => ?_⟩
    -- an assignment that sets one handle apart from all others
    let σ : Assignment := Function.update (fun _ => .int) e.1 (.pointer .int)
    have same : σ e.1 = σ e.2 := (Term.ground_eq_iff_of_pairUp paired distinct σ σ).mp rfl e member
    by_contra differ
    simp [σ, Ne.symm differ] at same

namespace Store

variable {s : Store} {x y : Handle}

private theorem resolve_eq_var_iff (formed : s.Formed) {k : Handle} :
    s.resolve x = .var k ↔ s.term? x = none ∧ s.find x = k := by
  cases found : s.term? x with
  | none => simp [resolve_of_unbound found]
  | some t =>
    rw [resolve_of_bound formed.rooted formed.acyclic found]
    cases t <;> simp [Term.toTy]

private theorem Solves.eq_of_compatible (sound : s.Sound) {σ : Assignment} (solves : s.Solves σ)
    (agree : (s.resolve x).compatible (s.resolve y)) : σ x = σ y := by
  induction x using sound.acyclic.inside_out sound.rooted generalizing y with
  | step x ih =>
    cases found : s.term? x with
    | none =>
      have named := (Ty.eq_var_iff_of_compatible agree (s.find x)).mp (resolve_of_unbound found)
      have sameRoot := ((resolve_eq_var_iff sound.toFormed).mp named).2
      exact (solves.eq_of_sameRoot sameRoot).symm
    | some t =>
      cases found' : s.term? y with
      | none =>
        have named := (Ty.eq_var_iff_of_compatible agree (s.find y)).mpr (resolve_of_unbound found')
        have unbound := ((resolve_eq_var_iff sound.toFormed).mp named).1
        rw [found] at unbound
        cases unbound
      | some u =>
        rw [resolve_of_bound sound.rooted sound.acyclic found,
          resolve_of_bound sound.rooted sound.acyclic found'] at agree
        obtain ⟨parts, paired, inside⟩ := Ty.exists_pairUp_of_compatible agree
        rw [solves.terms x t found, solves.terms y u found',
          Term.ground_eq_iff_of_pairUp paired (sound.distinct_term? found)]
        intro e member
        exact ih t found e.1 (Term.mem_children_of_pairUp paired member).1 (inside e member)

/-- A later store is read out as the earlier one, up to the order of fields. Classes that were
unbound still are, with the same members. -/
structure Preserves (s s' : Store) : Prop where
  types : ∀ h, (s'.resolve h).compatible (s.resolve h)
  unbound : ∀ h, s.term? h = none → s'.term? h = none
  members : ∀ h k, s.term? h = none → s'.sameClass h k = s.sameClass h k

private theorem preserves_of_types {s' : Store} (formed : s.Formed) (formed' : s'.Formed)
    (types : ∀ h, (s'.resolve h).compatible (s.resolve h)) : s.Preserves s' := by
  have named : ∀ h k, s'.term? h = none ∧ s'.find h = k ↔ s.term? h = none ∧ s.find h = k := by
    intro h k
    rw [← resolve_eq_var_iff formed, ← resolve_eq_var_iff formed',
      Ty.eq_var_iff_of_compatible (types h)]
  refine ⟨types, fun h unbound => ((named h _).mpr ⟨unbound, rfl⟩).1, fun h k unbound => ?_⟩
  obtain ⟨unbound', sameRoot⟩ := (named h _).mpr ⟨unbound, rfl⟩
  -- whatever shares the root of an unbound class is unbound under the same name
  have members : ∀ {r : Store}, r.find h = s.find h → r.term? h = none →
      (r.sameClass h k ↔ r.term? k = none ∧ r.find k = s.find h) := by
    intro r root open'
    rw [sameClass, beq_iff_eq, root]
    constructor
    · intro same
      refine ⟨?_, same.symm⟩
      rw [term?, ← same, ← root]
      exact open'
    · rintro ⟨-, same⟩
      exact same.symm
  rw [Bool.eq_iff_iff, members sameRoot unbound', members rfl unbound, named]

private theorem unify_of_compatible (sound : s.Sound) (lowest : s.Lowest)
    (agree : (s.resolve x).compatible (s.resolve y)) :
    (s.unify x y).conflict? = none ∧ s.Preserves (s.unify x y).store := by
  have decided := unify_decides sound x y
  have equal : ∀ σ, s.Solves σ → σ x = σ y := fun σ solves => solves.eq_of_compatible sound agree
  have accepted : (s.unify x y).conflict? = none := by
    cases outcome : (s.unify x y).conflict? with
    | none => rfl
    | some conflict =>
      have solves := solves_resolve sound.toFormed fun _ => .int
      exact absurd (equal _ solves) (decided.refuses conflict outcome _ solves)
  have same : ∀ σ, (s.unify x y).store.Solves σ ↔ s.Solves σ := fun σ =>
    (decided.accepts accepted σ).trans (and_iff_left_of_imp (equal σ))
  refine ⟨accepted, preserves_of_types sound.toFormed decided.sound.toFormed fun h => ?_⟩
  exact compatible_resolve decided.sound sound (lowest_solveAll sound.rooted lowest _) lowest same h

private theorem compatible_of_unify (sound : s.Sound) (left : (s.resolve x).isResolved)
    (right : (s.resolve y).isResolved) (accepted : (s.unify x y).conflict? = none) :
    (s.resolve x).compatible (s.resolve y) := by
  have decided := unify_decides sound x y
  have after := solves_resolve decided.sound.toFormed fun _ => .int
  obtain ⟨solves, equal⟩ := (decided.accepts accepted _).mp after
  have solution := (solution_iff_solves sound.toFormed).mpr solves
  have settled := settled_resolve sound ((isResolved_resolve_iff sound.toFormed).mp left)
  have settled' := settled_resolve sound ((isResolved_resolve_iff sound.toFormed).mp right)
  exact Ty.compatible_of_ground_eq _ settled settled'
    ((solution x).symm.trans (equal.trans (solution y)))

/-- Equations within classes leave a store alone. -/
theorem solveAll_of_same {equations : List Equation}
    (same : ∀ e ∈ equations, s.find e.1 = s.find e.2) : s.solveAll equations = { store := s } := by
  have skipped : ∀ merged, s.solveWith merged equations = { store := s } := by
    intro merged
    induction equations with
    | nil => rfl
    | cons e rest ih =>
      obtain ⟨first, later⟩ := List.forall_mem_cons.mp same
      rw [solveWith, meet, if_pos first]
      exact ih later
  rw [solveAll]
  cases s.terms.size with
  | zero => exact skipped _
  | succ merges => exact skipped _

private theorem unify_self (s : Store) (x : Handle) : s.unify x x = { store := s } :=
  solveAll_of_same (List.forall_mem_singleton.mpr rfl)

private theorem bind_term? (sound : s.Sound) {t : Term} (found : s.term? x = some t) :
    s.bind x t = { store := s } := by
  have apart : ¬ s.occurs (s.find x) t := by
    rw [occurs_iff sound.rooted]
    rintro ⟨c, member, within⟩
    exact sound.acyclic.not_within_child (sound.rooted x) found member within
  obtain ⟨parts, paired, same⟩ := Term.exists_pairUp_self (sound.distinct_term? found)
  rw [term?] at found
  simp only [bind, apart, found, paired, Bool.false_eq_true, if_false]
  exact solveAll_of_same fun e member => congrArg s.find (same e member)

private theorem Built.mono {allowed allowed' : Term → Prop} (weaker : ∀ t, allowed t → allowed' t)
    (built : s.Built allowed) : s.Built allowed' := by
  induction built with
  | empty => exact .empty
  | unify _ x y ih => exact .unify ih x y
  | bind _ x ok ih => exact .bind ih x (weaker _ ok)

/-- Unification agrees with the comparison of types. An equation between handles that are read out
alike succeeds, and the store is read out as before; between types without variables no other
equation succeeds. To bind a class to its own term, or to equate a handle with itself, does
nothing. -/
theorem unify_iff_compatible {s : Store} (built : s.Built fun _ => True)
    (distinct : ∀ (r : Handle) (t : Term), s.terms[r]? = some t → t.DistinctNames) :
    (∀ x y, (s.resolve x).compatible (s.resolve y) →
      (s.unify x y).conflict? = none ∧ s.Preserves (s.unify x y).store) ∧
    (∀ x y, (s.resolve x).isResolved → (s.resolve y).isResolved →
      (s.unify x y).conflict? = none → (s.resolve x).compatible (s.resolve y)) ∧
    (∀ x t, s.term? x = some t → s.bind x t = { store := s }) ∧
    ∀ x, s.unify x x = { store := s } := by
  have sound : s.Sound := ⟨built.formed, distinct⟩
  refine ⟨?_, ?_, ?_, s.unify_self⟩
  · intro x y agree
    exact unify_of_compatible sound built.lowest agree
  · intro x y left right accepted
    exact compatible_of_unify sound left right accepted
  · intro x t found
    exact bind_term? sound found

/-- Pointers to two records that list their fields in different orders and share a field of unknown
type. The records are merged, and the shared class keeps its name. -/
theorem unify_iff_compatible_pointers :
    let s := ([(0, Term.record [("f", 1), ("g", 2)]), (3, .record [("g", 4), ("f", 5)]), (1, .int),
      (5, .int), (6, .pointer 0), (7, .pointer 3)].foldl (fun s (x, t) => (s.bind x t).store)
        ({} : Store)).unify 4 2 |>.store
    s.Built (fun _ => True) ∧ s.Sound ∧
      s.resolve 6 = .pointer (.record [("f", .int), ("g", .var 2)]) ∧
      s.resolve 7 = .pointer (.record [("g", .var 2), ("f", .int)]) ∧
      (s.unify 6 7).conflict? = none ∧ (s.unify 6 7).store.sameClass 0 3 ∧ ¬ s.sameClass 0 3 ∧
      s.Preserves (s.unify 6 7).store ∧
      (s.unify 1 5).conflict? = none ∧ (s.resolve 1).compatible (s.resolve 5) ∧
      s.bind 7 (.pointer 3) = { store := s } ∧ s.unify 6 6 = { store := s } := by
  intro s
  have built : s.Built Term.DistinctNames :=
    .unify (.bind (.bind (.bind (.bind (.bind (.bind .empty 0 (by decide)) 3 (by decide))
      1 trivial) 5 trivial) 6 trivial) 7 trivial) 4 2
  have reached : s.Built fun _ => True := built.mono fun _ _ => trivial
  obtain ⟨alike, only, rebinding, itself⟩ := unify_iff_compatible reached built.sound.distinct
  obtain ⟨accepted, preserves⟩ := alike 6 7 (by decide +kernel)
  exact ⟨reached, built.sound, by decide +kernel, by decide +kernel, accepted, by decide +kernel,
    by decide +kernel, preserves, by decide +kernel,
    only 1 5 (by decide +kernel) (by decide +kernel) (by decide +kernel),
    rebinding 7 _ (by decide +kernel), itself 6⟩

end Store

end TypeInference
