import TypeInference.Proofs.Constraints
import TypeInference.Proofs.Growth

/-!
# Terms up to classes

A call that succeeds has solved every equation that it came upon. So the handles that it equates
share a class, and a class that has lost its term to another one is bound to a term with the same
classes inside. To compare terms up to classes, every class is given a ground type of its own.
-/

set_option autoImplicit false

namespace TypeInference

namespace Ground

/-- As many pointers below each other as the number says. -/
def tower : Nat → Ground
  | 0 => int
  | n + 1 => pointer (tower n)

private theorem tower_injective : Function.Injective tower := by
  intro n
  induction n with
  | zero =>
    intro m equal
    cases m with
    | zero => rfl
    | succ m => cases equal
  | succ n ih =>
    intro m equal
    cases m with
    | zero => cases equal
    | succ m => rw [ih (pointer.inj equal)]

end Ground

namespace Store

variable {s : Store} {x y : Handle} {t u v : Term}

/-- An assignment that tells all classes apart. -/
def tag (s : Store) : Assignment := fun h => .tower (s.find h)

theorem tag_eq_iff : s.tag x = s.tag y ↔ s.sameClass x y := by
  rw [sameClass, beq_iff_eq]
  exact Ground.tower_injective.eq_iff

/-- Two terms have one constructor, with the same classes inside. -/
def Alike (s : Store) (t u : Term) : Prop := t.ground s.tag = u.ground s.tag

/-- Terms that pair up are alike when every pair is of one class. -/
theorem alike_of_pairUp {parts : List Equation} (distinct : t.DistinctNames)
    (paired : t.pairUp u = .ok parts) (same : ∀ e ∈ parts, s.sameClass e.1 e.2) : s.Alike t u :=
  (Term.ground_eq_iff_of_pairUp paired distinct s.tag s.tag).mpr fun e member =>
    tag_eq_iff.mpr (same e member)

/-- Terms that are alike have the same fields, in the same classes. -/
theorem Alike.field? (alike : s.Alike t u) {name : String} {h : Handle}
    (found : t.field? name = some h) : ∃ h', u.field? name = some h' ∧ s.sameClass h h' := by
  have fields := congrArg (Ground.field? · name) alike
  simp only [Term.field?_ground, found, Option.map_some] at fields
  obtain ⟨h', found', equal⟩ := Option.map_eq_some_iff.mp fields.symm
  exact ⟨h', found', tag_eq_iff.mp equal.symm⟩

private theorem Sides.sameClass_link (rooted : s.Rooted) {child root : Handle}
    (sides : s.Sides x y child root) : (s.link child root).sameClass x y := by
  rw [sameClass, beq_iff_eq, find_link rooted sides.below sides.above sides.ne,
    find_link rooted sides.below sides.above sides.ne]
  rcases sides.order with ⟨rfl, rfl⟩ | ⟨rfl, rfl⟩
  · rw [if_pos rfl, if_neg sides.ne.symm]
  · rw [if_neg sides.ne.symm, if_pos rfl]

private theorem term?_link (rooted : s.Rooted) {child root : Handle}
    (sides : s.Sides x y child root) (h : Handle) :
    (s.link child root).term? h = if s.find h = child then s.terms[root]? else s.term? h := by
  rw [term?, find_link rooted sides.below sides.above sides.ne, term?]
  split <;> rfl

namespace Run

variable {equations : List Equation} {r : Report}

/-- At the end of a run without a clash, all its equations hold between classes. -/
theorem sameClass (run : Run s equations r) (sound : s.Sound) (accepted : r.conflict? = none) :
    ∀ e ∈ equations, r.store.sameClass e.1 e.2 := by
  induction run with
  | done s => exact fun e member => by cases member
  | same met tail ih =>
    refine List.forall_mem_cons.mpr ⟨?_, ih sound accepted⟩
    cases met with
    | same equal => exact (tail.extends sound).classes _ _ (beq_iff_eq.mpr equal)
  | join met tail ih =>
    cases met with
    | join sides unbound apart =>
      have linked := sides.sound_link sound apart
      exact List.forall_mem_cons.mpr
        ⟨(tail.extends linked).classes _ _ (sides.sameClass_link sound.rooted), ih linked accepted⟩
  | merge met tail ih =>
    cases met with
    | merge sides left right paired apart =>
      have linked := sides.sound_link sound apart
      obtain ⟨-, later⟩ := List.forall_mem_append.mp (ih linked accepted)
      exact List.forall_mem_cons.mpr
        ⟨(tail.extends linked).classes _ _ (sides.sameClass_link sound.rooted), later⟩
  | clash met => cases accepted

/-- At the end of a run without a clash, a class that was bound is bound to a term alike. Where two
bound classes merge, their terms are paired up by equations that the run goes on to solve. -/
theorem alike (run : Run s equations r) (sound : s.Sound) (accepted : r.conflict? = none)
    (found : s.term? x = some t) : ∃ u, r.store.term? x = some u ∧ r.store.Alike t u := by
  induction run generalizing t with
  | done s => exact ⟨t, found, rfl⟩
  | same met tail ih => exact ih sound accepted found
  | @join s a b child root rest r met tail ih =>
    cases met with
    | join sides unbound apart =>
      have other : s.find x ≠ child := by
        rintro rfl
        rw [term?, unbound] at found
        cases found
      refine ih (sides.sound_link sound apart) accepted ?_
      rw [term?_link sound.rooted sides, if_neg other, found]
  | @merge s a b child root parts rest r met tail ih =>
    cases met with
    | @merge _ _ v w _ sides left right paired apart =>
      have linked := sides.sound_link sound apart
      have equal : r.store.Alike v w :=
        alike_of_pairUp (sound.distinct _ v left) paired fun e member =>
          tail.sameClass linked accepted e (List.mem_append_left _ member)
      have term_eq := term?_link sound.rooted sides x
      by_cases inChild : s.find x = child
      · rw [if_pos inChild] at term_eq
        rw [term?, inChild] at found
        rcases sides.order with ⟨rfl, rfl⟩ | ⟨rfl, rfl⟩
        · obtain rfl := Option.some.inj (found.symm.trans left)
          obtain ⟨u, found', alike⟩ := ih linked accepted (term_eq.trans right)
          exact ⟨u, found', equal.trans alike⟩
        · obtain rfl := Option.some.inj (found.symm.trans right)
          obtain ⟨u, found', alike⟩ := ih linked accepted (term_eq.trans left)
          exact ⟨u, found', equal.symm.trans alike⟩
      · rw [if_neg inChild] at term_eq
        exact ih linked accepted (term_eq.trans found)
  | clash met => cases accepted

end Run

/-- What an access asks for is in the store: the class of its record is bound to a record, and the
class of the field holds the node. -/
def Provides (s : Store) (a : Access) : Prop :=
  ∃ fields field, s.term? a.record = some (.record fields) ∧
    fields.lookup a.field = some field ∧ s.sameClass a.node field

theorem provides_iff {a : Access} : s.Provides a ↔
    ∃ t field, s.term? a.record = some t ∧ t.field? a.field = some field ∧
      s.sameClass a.node field := by
  constructor
  · rintro ⟨fields, field, bound, found, same⟩
    exact ⟨_, field, bound, found, same⟩
  · rintro ⟨t, field, bound, found, same⟩
    cases t with
    | record fields => exact ⟨fields, field, bound, found, same⟩
    | int | pointer _ | function _ _ => cases found

section Provides

variable {a : Access}

/-- What is provided holds under all solutions. -/
theorem Provides.holds (provides : s.Provides a) {σ : Assignment} (solves : s.Solves σ) :
    a.Holds σ := by
  obtain ⟨fields, field, bound, found, same⟩ := provides
  rw [Access.holds_iff (solves.terms _ _ bound), Term.field?, found, Option.map_some]
  exact congrArg some (solves.eq_of_sameRoot (beq_iff_eq.mp same)).symm

private theorem provides_solveAll (sound : s.Sound) {equations : List Equation}
    (accepted : (s.solveAll equations).conflict? = none) {t : Term} {field : Handle}
    (bound : s.term? a.record = some t) (found : t.field? a.field = some field)
    (same : (s.solveAll equations).store.sameClass a.node field) :
    (s.solveAll equations).store.Provides a := by
  have run := run_solveAll sound.rooted equations
  obtain ⟨u, bound', alike⟩ := run.alike sound accepted bound
  obtain ⟨field', found', same'⟩ := alike.field? found
  refine provides_iff.mpr ⟨u, field', bound', found', ?_⟩
  rw [sameClass, beq_iff_eq] at same same' ⊢
  exact same.trans same'

theorem Provides.solveAll (sound : s.Sound) (provides : s.Provides a) {equations : List Equation}
    (accepted : (s.solveAll equations).conflict? = none) :
    (s.solveAll equations).store.Provides a := by
  obtain ⟨t, field, bound, found, same⟩ := provides_iff.mp provides
  exact provides_solveAll sound accepted bound found
    ((extends_solveAll sound equations).classes _ _ same)

/-- To equate the node of an access with the field provides what is asked for. -/
theorem provides_unify (sound : s.Sound) {t : Term} {field : Handle}
    (accepted : (s.unify a.node field).conflict? = none) (bound : s.term? a.record = some t)
    (found : t.field? a.field = some field) : (s.unify a.node field).store.Provides a :=
  provides_solveAll sound accepted bound found
    ((run_solveAll sound.rooted [(a.node, field)]).sameClass sound accepted _
      (List.mem_singleton_self _))

end Provides

end Store

end TypeInference
