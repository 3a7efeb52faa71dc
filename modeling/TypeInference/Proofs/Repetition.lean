import TypeInference.Proofs.Agreement
import TypeInference.Proofs.Handles
import TypeInference.Proofs.Retention

/-!
# Calls made again

A call that has succeeded once leaves a store that has what it asked for, and further calls that
succeed take none of it away. Made again, the call finds everything in place and does nothing. The
one call that cannot be made in the same words again is a pointer to a new handle: made with another
new handle it puts that handle, and nothing else, into the class that is pointed to.
-/

set_option autoImplicit false

namespace TypeInference

namespace Store

variable {s s' : Store} {x : Handle} {t : Term}

private theorem Agrees.not_occurs (agrees : s.Agrees x t) (sound : s.Sound)
    (distinct : t.DistinctNames) : ¬ s.occurs (s.find x) t := by
  intro occurs
  obtain ⟨u, bound, alike⟩ := agrees
  obtain ⟨parts, paired, same⟩ :=
    exists_pairUp_of_alike (sound.distinct_term? bound) distinct alike
  have solves := solves_resolve sound.toFormed fun _ => .int
  refine solves.ne_of_occurs sound distinct occurs ?_
  rw [← solves.classes x, solves.terms x u bound,
    Term.ground_eq_iff_of_pairUp paired (sound.distinct_term? bound)]
  exact fun e member => solves.eq_of_sameRoot (beq_iff_eq.mp (same e member))

private theorem bind_of_agrees (sound : s.Sound) (distinct : t.DistinctNames)
    (agrees : s.Agrees x t) : s.bind x t = { store := s } := by
  have apart := agrees.not_occurs sound distinct
  obtain ⟨u, bound, alike⟩ := agrees
  obtain ⟨parts, paired, same⟩ :=
    exists_pairUp_of_alike (sound.distinct_term? bound) distinct alike
  rw [term?] at bound
  simp only [bind, apart, bound, paired, Bool.false_eq_true, if_false]
  exact solveAll_of_same fun e member => beq_iff_eq.mp (same e member)

/-- A record that a class agrees with provides its fields. -/
theorem Agrees.provides {a : Access} {field : Handle} (agrees : s.Agrees a.record t)
    (found : t.field? a.field = some field) (same : s.sameClass a.node field) : s.Provides a := by
  obtain ⟨u, bound, alike⟩ := agrees
  obtain ⟨field', found', same'⟩ := Alike.field? alike.symm found
  refine provides_iff.mpr ⟨u, field', bound, found', ?_⟩
  rw [sameClass, beq_iff_eq] at same same' ⊢
  exact same.trans same'

theorem Agrees.exists_pointer {target : Handle} (agrees : s.Agrees x (.pointer target)) :
    ∃ target', s.term? x = some (.pointer target') := by
  obtain ⟨u, bound, alike⟩ := agrees
  cases u with
  | pointer target' => exact ⟨target', bound⟩
  | int | function _ _ | record _ => cases alike

end Store

namespace Call

variable {s : Store} {call : Call}

/-- The store has what the call asks for. -/
def Done (s : Store) : Call → Prop
  | unify x y => s.sameClass x y
  | bind x t => s.Agrees x t

theorem done_run (sound : s.Sound) (accepted : (call.run s).conflict? = none) :
    call.Done (call.run s).store := by
  cases call with
  | unify x y =>
    exact (Store.run_solveAll sound.rooted [(x, y)]).sameClass sound accepted _
      (List.mem_singleton_self _)
  | bind x t => exact Store.agrees_bind sound accepted

/-- A call that finds everything in place does nothing. -/
theorem run_of_done (sound : s.Sound) (distinct : call.DistinctNames) (done : call.Done s) :
    call.run s = { store := s } := by
  cases call with
  | unify x y =>
    exact Store.solveAll_of_same (List.forall_mem_singleton.mpr (beq_iff_eq.mp done))
  | bind x t => exact Store.bind_of_agrees sound distinct done

end Call

namespace Store

variable {s s' s'' : Store} {n : Nat}

/-- Handles below `n` have kept their roots, and their classes the terms. -/
structure SameBelow (n : Nat) (s s' : Store) : Prop where
  find : ∀ h < n, s'.find h = s.find h
  term? : ∀ h < n, s'.term? h = s.term? h

theorem SameBelow.refl (n : Nat) (s : Store) : SameBelow n s s := ⟨fun _ _ => rfl, fun _ _ => rfl⟩

theorem SameBelow.trans (first : SameBelow n s s') {m : Nat} (le : n ≤ m)
    (second : SameBelow m s' s'') : SameBelow n s s'' where
  find h below := (second.find h (below.trans_le le)).trans (first.find h below)
  term? h below := (second.term? h (below.trans_le le)).trans (first.term? h below)

section SameBelow

variable (same : SameBelow n s s') (uses : s.Over (· < n))

include same

theorem SameBelow.sameClass {x y : Handle} (left : x < n) (right : y < n)
    (joined : s.sameClass x y) : s'.sameClass x y := by
  rw [Store.sameClass, same.find x left, same.find y right]
  exact joined

include uses

theorem SameBelow.agrees {x : Handle} {t : Term} (row : x < n) (rows : ∀ c ∈ t.children, c < n)
    (agrees : s.Agrees x t) : s'.Agrees x t := by
  obtain ⟨u, bound, alike⟩ := agrees
  have tags : ∀ v : Term, (∀ c ∈ v.children, c < n) → v.ground s'.tag = v.ground s.tag := by
    intro v below
    refine Term.ground_congr fun c member => ?_
    rw [tag, tag, same.find c (below c member)]
  refine ⟨u, (same.term? x row).trans bound, ?_⟩
  rw [Alike, tags u fun c member => uses.children bound member, tags t rows]
  exact alike

end SameBelow

section New

variable {new x target : Handle} (uses : s.Over (· < new))

include uses

private theorem Over.find_new : s.find new = new :=
  find_of_isRoot (uses.isRoot_of_new (Nat.lt_irrefl new))

private theorem Over.term?_new : s.term? new = none := by
  rw [Store.term?, uses.find_new]
  exact uses.unbound_of_new (Nat.lt_irrefl new)

/-- Within known handles there are only known ones. -/
theorem Over.within {k : Handle} (within : s.Within k x) (row : x < new) : k < new := by
  induction within using Relation.ReflTransGen.head_induction_on with
  | refl => exact uses.find row
  | head inside rest ih =>
    obtain ⟨-, t, bound, c, member, rfl⟩ := inside
    exact uses.find ((uses.terms _ t bound).2 c member)

/-- A new handle that joins a known class changes nothing below. -/
theorem sameBelow_link (rooted : s.Rooted) {root : Handle} (above : s.IsRoot root)
    (row : root < new) : SameBelow new s (s.link new root) := by
  have below : s.IsRoot new := uses.isRoot_of_new (Nat.lt_irrefl new)
  have kept : ∀ h < new, (s.link new root).find h = s.find h := by
    intro h lower
    rw [find_link rooted below above row.ne', if_neg (uses.find lower).ne]
  exact ⟨kept, fun h lower => by rw [Store.term?, kept h lower, terms_link, Store.term?]⟩

private theorem meet_new (rooted : s.Rooted) (row : target < new) :
    s.meet target new = .join new (s.find target) := by
  have lower : s.find target < new := uses.find row
  have unbound : s.terms[new]? = none := uses.unbound_of_new (Nat.lt_irrefl new)
  rw [meet, uses.find_new, if_neg lower.ne, unbound]
  cases bound : s.terms[s.find target]? with
  | none => rw [max_eq_right lower.le, min_eq_left lower.le]
  | some t =>
    have apart : ¬ s.occurs new t := by
      rw [occurs_iff rooted]
      rintro ⟨c, member, within⟩
      exact Nat.lt_irrefl new (uses.within within ((uses.terms _ t bound).2 c member))
    simp only [if_neg apart]

/-- A pointer that is asked to point to a new handle takes it into the class it points to. -/
theorem bind_pointer_new (rooted : s.Rooted) (row : x < new)
    (bound : s.term? x = some (.pointer target)) :
    (s.bind x (.pointer new)).conflict? = none ∧
      (s.bind x (.pointer new)).store = s.link new (s.find target) := by
  have rowTarget : target < new := uses.children bound (List.mem_singleton_self target)
  have apart : ¬ s.occurs (s.find x) (.pointer new) := by
    rw [occurs_iff rooted]
    rintro ⟨c, member, within⟩
    obtain rfl := List.mem_singleton.mp member
    rw [within_iff_of_unbound uses.term?_new, uses.find_new] at within
    exact (uses.find row).ne within
  have joined : s.bind x (.pointer new) = s.solveAll [(target, new)] := by
    rw [Store.term?] at bound
    simp only [bind, apart, bound, Term.pairUp, Bool.false_eq_true, if_false]
  have linked : s.solveAll [(target, new)] =
      .after (.linked new (s.find target)) { store := s.link new (s.find target) } := by
    rw [solveAll]
    cases s.terms.size <;> simp only [solve, solveWith, meet_new uses rooted rowTarget]
  rw [joined, linked]
  exact ⟨rfl, rfl⟩

end New

end Store

end TypeInference
