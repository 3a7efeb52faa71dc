import TypeInference.Proofs.Acyclic
import TypeInference.Store.Unify

/-!
# Runs of unification

What a meeting of two handles can be is said once, in `Meets`, and what solving a list of equations
does is a run of such meetings. The bound on merges never ends a run early, so every property of
unification is proved by induction over its run.
-/

set_option autoImplicit false

namespace TypeInference

namespace Store

variable {s : Store}

/-- Two different roots, those of `x` and `y` in either order. -/
structure Sides (s : Store) (x y child root : Handle) : Prop where
  below : s.IsRoot child
  above : s.IsRoot root
  ne : child ≠ root
  order : child = s.find x ∧ root = s.find y ∨ child = s.find y ∧ root = s.find x

private theorem Sides.left (rooted : s.Rooted) {x y : Handle} (differ : s.find x ≠ s.find y) :
    s.Sides x y (s.find x) (s.find y) :=
  ⟨rooted x, rooted y, differ, .inl ⟨rfl, rfl⟩⟩

private theorem Sides.right (rooted : s.Rooted) {x y : Handle} (differ : s.find x ≠ s.find y) :
    s.Sides x y (s.find y) (s.find x) :=
  ⟨rooted y, rooted x, differ.symm, .inr ⟨rfl, rfl⟩⟩

private theorem Sides.lower (rooted : s.Rooted) {x y : Handle} (differ : s.find x ≠ s.find y) :
    s.Sides x y (max (s.find x) (s.find y)) (min (s.find x) (s.find y)) := by
  rcases Nat.le_total (s.find x) (s.find y) with le | le
  · rw [Nat.max_eq_right le, Nat.min_eq_left le]
    exact .right rooted differ
  · rw [Nat.max_eq_left le, Nat.min_eq_right le]
    exact .left rooted differ

/-- What deciding the equation of `x` and `y` finds. -/
inductive Meets (s : Store) (x y : Handle) : Meeting → Prop
  | same (equal : s.find x = s.find y) : Meets s x y .same
  | join {child root : Handle} (sides : s.Sides x y child root)
      (unbound : s.terms[child]? = none)
      (apart : ∀ t, s.terms[root]? = some t → ¬ s.occurs child t) :
      Meets s x y (.join child root)
  | merge {child root : Handle} {t u : Term} {parts : List Equation}
      (sides : s.Sides x y child root)
      (left : s.terms[s.find x]? = some t) (right : s.terms[s.find y]? = some u)
      (paired : t.pairUp u = .ok parts)
      (apart : ∀ t, s.terms[root]? = some t → ¬ s.occurs child t) :
      Meets s x y (.merge child root parts)
  | mismatched {t u : Term} {reason : Reason} (differ : s.find x ≠ s.find y)
      (left : s.terms[s.find x]? = some t) (right : s.terms[s.find y]? = some u)
      (unpaired : t.pairUp u = .error reason) :
      Meets s x y (.clash (s.mismatch reason x y t u))
  | cyclicLeft {t : Term} (differ : s.find x ≠ s.find y) (left : s.terms[s.find x]? = some t)
      (occurs : s.occurs (s.find y) t) : Meets s x y (.clash (s.infinite y (s.find y) t))
  | cyclicRight {u : Term} (differ : s.find x ≠ s.find y) (right : s.terms[s.find y]? = some u)
      (occurs : s.occurs (s.find x) u) : Meets s x y (.clash (s.infinite x (s.find x) u))

theorem meets_meet (rooted : s.Rooted) (x y : Handle) : s.Meets x y (s.meet x y) := by
  rw [meet]
  split
  · rename_i equal
    exact .same equal
  · rename_i differ
    split
    · rename_i left right
      refine .join (.lower rooted differ) ?_ ?_
      · rcases (Sides.lower rooted differ).order with ⟨isLeft, -⟩ | ⟨isRight, -⟩
        · rw [isLeft, left]
        · rw [isRight, right]
      · intro t bound
        rcases (Sides.lower rooted differ).order with ⟨-, isRight⟩ | ⟨-, isLeft⟩
        · rw [isRight, right] at bound
          cases bound
        · rw [isLeft, left] at bound
          cases bound
    · rename_i t left right
      split
      · rename_i occurs
        exact .cyclicLeft differ left occurs
      · rename_i apart
        refine .join (.right rooted differ) right fun u bound => ?_
        rw [left] at bound
        obtain rfl := Option.some.inj bound
        exact apart
    · rename_i u left right
      split
      · rename_i occurs
        exact .cyclicRight differ right occurs
      · rename_i apart
        refine .join (.left rooted differ) left fun t bound => ?_
        rw [right] at bound
        obtain rfl := Option.some.inj bound
        exact apart
    · rename_i t u left right
      split
      · rename_i reason unpaired
        exact .mismatched differ left right unpaired
      · rename_i parts paired
        split
        · rename_i occurs
          exact .cyclicLeft differ left occurs
        · rename_i apartLeft
          split
          · rename_i occurs
            exact .cyclicRight differ right occurs
          · rename_i apartRight
            refine .merge (.lower rooted differ) left right paired fun v bound => ?_
            rcases (Sides.lower rooted differ).order with ⟨isLeft, isRight⟩ | ⟨isRight, isLeft⟩
            · rw [isRight, right] at bound
              obtain rfl := Option.some.inj bound
              rw [isLeft]
              exact apartRight
            · rw [isLeft, left] at bound
              obtain rfl := Option.some.inj bound
              rw [isRight]
              exact apartLeft

theorem meets_of_meet (rooted : s.Rooted) {x y : Handle} {meeting : Meeting}
    (met : s.meet x y = meeting) : s.Meets x y meeting := by
  rw [← met]
  exact meets_meet rooted x y

theorem Meets.rooted_join (rooted : s.Rooted) {x y child root : Handle}
    (met : s.Meets x y (.join child root)) : (s.link child root).Rooted := by
  cases met with
  | join sides unbound apart => exact rooted_link rooted sides.below sides.above sides.ne

theorem Meets.rooted_merge (rooted : s.Rooted) {x y child root : Handle} {parts : List Equation}
    (met : s.Meets x y (.merge child root parts)) : (s.link child root).Rooted := by
  cases met with
  | merge sides left right paired apart =>
    exact rooted_link rooted sides.below sides.above sides.ne

/-- Both sides of a merge are bound. -/
theorem Meets.child_mem_boundRoots {x y child root : Handle} {parts : List Equation}
    (met : s.Meets x y (.merge child root parts)) : child ∈ s.boundRoots := by
  cases met with
  | merge sides left right paired apart =>
    refine mem_boundRoots.mpr ⟨sides.below, ?_⟩
    rcases sides.order with ⟨rfl, -⟩ | ⟨rfl, -⟩
    · exact ⟨_, left⟩
    · exact ⟨_, right⟩

/-- Solving equations one after the other, those of a merge next, up to the end or the first
clash. -/
inductive Run : Store → List Equation → Report → Prop
  | done (s : Store) : Run s [] { store := s }
  | same {s : Store} {x y : Handle} {rest : List Equation} {r : Report}
      (met : s.Meets x y .same) (tail : Run s rest r) : Run s ((x, y) :: rest) r
  | join {s : Store} {x y child root : Handle} {rest : List Equation} {r : Report}
      (met : s.Meets x y (.join child root)) (tail : Run (s.link child root) rest r) :
      Run s ((x, y) :: rest) (.after (.linked child root) r)
  | merge {s : Store} {x y child root : Handle} {parts rest : List Equation} {r : Report}
      (met : s.Meets x y (.merge child root parts))
      (tail : Run (s.link child root) (parts ++ rest) r) :
      Run s ((x, y) :: rest) (.after (.linked child root) r)
  | clash {s : Store} {x y : Handle} {rest : List Equation} {conflict : Conflict}
      (met : s.Meets x y (.clash conflict)) : Run s ((x, y) :: rest) (.failed s conflict)

private theorem run_solveWith {merged : Store → List Equation → Report} {n : Nat}
    (each : ∀ s equations, s.Rooted → s.boundRoots.card < n →
      Run s equations (merged s equations)) (equations : List Equation) :
    ∀ s : Store, s.Rooted → s.boundRoots.card ≤ n →
      Run s equations (s.solveWith merged equations) := by
  induction equations with
  | nil => exact fun s _ _ => .done s
  | cons equation rest ih =>
    intro s rooted enough
    obtain ⟨x, y⟩ := equation
    have met := meets_meet rooted x y
    rw [solveWith]
    split
    · rename_i decided
      rw [decided] at met
      exact .same met (ih s rooted enough)
    · rename_i child root decided
      rw [decided] at met
      refine .join met (ih _ (met.rooted_join rooted) ?_)
      rw [boundRoots_link]
      exact (Finset.card_erase_le).trans enough
    · rename_i child root parts decided
      rw [decided] at met
      refine .merge met (each _ _ (met.rooted_merge rooted) ?_)
      rw [boundRoots_link]
      exact (Finset.card_erase_lt_of_mem met.child_mem_boundRoots).trans_le enough
    · rename_i conflict decided
      rw [decided] at met
      exact .clash met

private theorem run_solve (n : Nat) : ∀ (s : Store) (equations : List Equation), s.Rooted →
    s.boundRoots.card ≤ n → Run s equations (solve n s equations) := by
  induction n with
  | zero =>
    intro s equations rooted enough
    exact run_solveWith (fun _ _ _ none => absurd none (Nat.not_lt_zero _)) equations s rooted
      enough
  | succ n ih =>
    intro s equations rooted enough
    exact run_solveWith (fun s equations rooted fewer =>
      ih s equations rooted (Nat.le_of_lt_succ fewer)) equations s rooted enough

theorem run_solveAll (rooted : s.Rooted) (equations : List Equation) :
    Run s equations (s.solveAll equations) :=
  run_solve _ s equations rooted s.card_boundRoots_le

/-- A forest without cycles, the part of a store's good order that needs nothing of its terms. -/
structure Formed (s : Store) : Prop where
  rooted : s.Rooted
  acyclic : s.Acyclic

theorem formed_empty : Formed {} := ⟨rooted_empty, acyclic_empty⟩

theorem Sides.formed_link {x y child root : Handle} (sides : s.Sides x y child root)
    (formed : s.Formed) (apart : ∀ t, s.terms[root]? = some t → ¬ s.occurs child t) :
    (s.link child root).Formed := by
  refine ⟨rooted_link formed.rooted sides.below sides.above sides.ne,
    formed.acyclic.link formed.rooted sides.below sides.above sides.ne ?_⟩
  intro t bound c member within
  exact apart t bound ((occurs_iff formed.rooted).mpr ⟨c, member, within⟩)

namespace Run

variable {equations : List Equation} {r : Report}

/-- Unification keeps the forest in order, also when it ends in a clash. -/
theorem formed (run : Run s equations r) (start : s.Formed) : r.store.Formed := by
  induction run with
  | done s => exact start
  | same met tail ih => exact ih start
  | join met tail ih =>
    cases met with
    | join sides unbound apart => exact ih (sides.formed_link start apart)
  | merge met tail ih =>
    cases met with
    | merge sides left right paired apart => exact ih (sides.formed_link start apart)
  | clash met => exact start

/-- Unification binds no term. -/
theorem terms_eq (run : Run s equations r) : r.store.terms = s.terms := by
  induction run with
  | done s => rfl
  | same met tail ih => exact ih
  | join met tail ih => exact ih
  | merge met tail ih => exact ih
  | clash met => rfl

end Run

theorem formed_solveAll (formed : s.Formed) (equations : List Equation) :
    (s.solveAll equations).store.Formed :=
  (run_solveAll formed.rooted equations).formed formed

theorem formed_bind (formed : s.Formed) (x : Handle) (t : Term) : (s.bind x t).store.Formed := by
  rw [bind]
  split
  · exact formed
  · rename_i apart
    split
    · refine ⟨rooted_assign formed.rooted _ t, formed.acyclic.assign ?_⟩
      intro c member within
      exact apart ((occurs_iff formed.rooted).mpr ⟨c, member, within⟩)
    · split
      · exact formed
      · exact formed_solveAll formed _

/-- The stores that calls of `unify` and `bind` lead to, successful or not, where every term that is
bound is `allowed`. -/
inductive Built (allowed : Term → Prop) : Store → Prop
  | empty : Built allowed {}
  | unify {s : Store} (built : Built allowed s) (x y : Handle) : Built allowed (s.unify x y).store
  | bind {s : Store} (built : Built allowed s) (x : Handle) {t : Term} (ok : allowed t) :
      Built allowed (s.bind x t).store

theorem Built.formed {allowed : Term → Prop} (built : s.Built allowed) : s.Formed := by
  induction built with
  | empty => exact formed_empty
  | unify built x y ih => exact formed_solveAll ih [(x, y)]
  | bind built x ok ih => exact formed_bind ih x _

end Store

end TypeInference
