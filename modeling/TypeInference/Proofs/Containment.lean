import Mathlib.Logic.Relation
import TypeInference.Proofs.Unify

/-!
# Classes inside each other

One class encloses another when bound terms lead from it to the other in one step or more. The
occurs check finds exactly the classes that its term would enclose, and it stands before the first
change to a store. So an equation between a class and one that it encloses is refused on the spot,
as is a term that leads back to the class that it is to be bound to.
-/

set_option autoImplicit false

namespace TypeInference

namespace Store

variable {s : Store} {x y : Handle} {t : Term}

/-- The class of `y` lies strictly inside that of `x`, at whatever depth. -/
def Encloses (s : Store) (x y : Handle) : Prop :=
  Relation.TransGen s.Inside (s.find y) (s.find x)

private theorem Encloses.exists_term (encloses : s.Encloses x y) : ∃ t, s.term? x = some t := by
  obtain ⟨r, -, -, t, bound, -⟩ := Relation.TransGen.tail'_iff.mp encloses
  exact ⟨t, bound⟩

/-- The classes that a bound class encloses are those that occur in its term. -/
theorem encloses_iff_occurs (rooted : s.Rooted) (bound : s.term? x = some t) :
    s.Encloses x y ↔ s.occurs (s.find y) t := by
  rw [Encloses, Relation.TransGen.tail'_iff, occurs_iff rooted]
  constructor
  · rintro ⟨r, within, isRoot, u, bound', c, member, rfl⟩
    obtain rfl := Option.some.inj (bound.symm.trans bound')
    exact ⟨c, member, within⟩
  · rintro ⟨c, member, within⟩
    exact ⟨s.find c, within, rooted x, t, bound, c, member, rfl⟩

private theorem Encloses.asymm (formed : s.Formed) (encloses : s.Encloses x y) : ¬ s.Encloses y x :=
  fun back => formed.acyclic.transGen.asymmetric _ _ encloses back

/-- Of two bound classes only one can occur in the term of the other. -/
theorem not_occurs_both (formed : s.Formed) {u : Term} (left : s.term? x = some t)
    (right : s.term? y = some u) (occurs : s.occurs (s.find y) t) :
    ¬ s.occurs (s.find x) u := by
  rw [← encloses_iff_occurs formed.rooted left] at occurs
  rw [← encloses_iff_occurs formed.rooted right]
  exact occurs.asymm formed

private theorem Encloses.find_ne (formed : s.Formed) (encloses : s.Encloses x y) :
    s.find x ≠ s.find y := by
  intro equal
  rw [Encloses, equal] at encloses
  exact formed.acyclic.transGen.asymmetric _ _ encloses encloses

section Clashes

variable {u : Term}

private theorem unify_of_clash {conflict : Conflict} (met : s.meet x y = .clash conflict) :
    s.unify x y = .failed s conflict := by
  rw [unify, solveAll]
  cases s.terms.size with
  | zero => rw [solve, solveWith, met]
  | succ merges => rw [solve, solveWith, met]

private theorem meet_of_unpaired {reason : Reason} (differ : s.find x ≠ s.find y)
    (left : s.term? x = some t) (right : s.term? y = some u)
    (unpaired : t.pairUp u = .error reason) :
    s.meet x y = .clash (s.mismatch reason x y t u) := by
  rw [term?] at left right
  simp [meet, differ, left, right, unpaired]

/-- The terms of the two classes, where both are bound, can be paired. -/
def Pairs (s : Store) (x y : Handle) : Prop :=
  ∀ t u, s.term? x = some t → s.term? y = some u → ∃ parts, t.pairUp u = .ok parts

private theorem Encloses.meet_inner (formed : s.Formed) (encloses : s.Encloses x y)
    (bound : s.term? x = some t) (pairs : s.Pairs x y) :
    s.meet x y = .clash (s.infinite y (s.find y) t) := by
  have differ := encloses.find_ne formed
  have occurs := (encloses_iff_occurs formed.rooted bound).mp encloses
  have left : s.terms[s.find x]? = some t := bound
  cases right : s.terms[s.find y]? with
  | none => simp [meet, differ, left, right, occurs]
  | some u =>
    obtain ⟨parts, paired⟩ := pairs t u bound right
    simp [meet, differ, left, right, paired, occurs]

private theorem Encloses.meet_outer (formed : s.Formed) (encloses : s.Encloses x y)
    (bound : s.term? x = some t) (pairs : s.Pairs y x) :
    s.meet y x = .clash (s.infinite y (s.find y) t) := by
  have differ := (encloses.find_ne formed).symm
  have occurs := (encloses_iff_occurs formed.rooted bound).mp encloses
  have right : s.terms[s.find x]? = some t := bound
  cases left : s.terms[s.find y]? with
  | none => simp [meet, differ, left, right, occurs]
  | some u =>
    obtain ⟨parts, paired⟩ := pairs u t left bound
    have apart := not_occurs_both formed bound left occurs
    simp [meet, differ, left, right, paired, occurs, apart]

/-- An equation is refused and the store left as it is: as a mismatch, if both classes are bound to
terms that cannot be paired, and with the given conflict otherwise. -/
structure Refuses (s : Store) (x y : Handle) (conflict : Conflict) : Prop where
  mismatched : ∀ t u reason, s.term? x = some t → s.term? y = some u → t.pairUp u = .error reason →
    s.unify x y = .failed s (s.mismatch reason x y t u)
  otherwise : s.Pairs x y → s.unify x y = .failed s conflict

private theorem Encloses.refuses_inner (formed : s.Formed) (encloses : s.Encloses x y)
    (bound : s.term? x = some t) : s.Refuses x y (s.infinite y (s.find y) t) where
  mismatched _ _ _ left right unpaired :=
    unify_of_clash (meet_of_unpaired (encloses.find_ne formed) left right unpaired)
  otherwise pairs := unify_of_clash (encloses.meet_inner formed bound pairs)

private theorem Encloses.refuses_outer (formed : s.Formed) (encloses : s.Encloses x y)
    (bound : s.term? x = some t) : s.Refuses y x (s.infinite y (s.find y) t) where
  mismatched _ _ _ left right unpaired :=
    unify_of_clash (meet_of_unpaired (encloses.find_ne formed).symm left right unpaired)
  otherwise pairs := unify_of_clash (encloses.meet_outer formed bound pairs)

end Clashes

/-- The occurs check is exact, and it comes before every change. It finds a class just when the
class lies within a handle of the term. Equations between a class and one that it encloses are
refused in either direction, and a term that leads back to the class of a handle cannot be bound to
it; the store is left as it was. -/
theorem occurs_check_exact {s : Store} (built : s.Built fun _ => True) :
    (∀ root t, s.occurs root t ↔ ∃ c ∈ t.children, s.Within root c) ∧
    (∀ x y, s.Encloses x y → ∃ t, s.term? x = some t ∧
      s.Refuses x y (s.infinite y (s.find y) t) ∧ s.Refuses y x (s.infinite y (s.find y) t)) ∧
    ∀ x t, (∃ c ∈ t.children, s.Within (s.find x) c) →
      s.bind x t = .failed s (s.infinite x (s.find x) t) := by
  have formed := built.formed
  refine ⟨fun root t => occurs_iff formed.rooted, fun x y encloses => ?_, fun x t leadsBack => ?_⟩
  · obtain ⟨t, bound⟩ := encloses.exists_term
    exact ⟨t, bound, encloses.refuses_inner formed bound, encloses.refuses_outer formed bound⟩
  · rw [bind, if_pos ((occurs_iff formed.rooted).mpr leadsBack)]

/-- A pointer to a function from an unknown class to that class. The pointer encloses the unknown
class at depth two, and the function, with which it cannot be paired, at depth one. -/
theorem occurs_check_exact_chain :
    let s := (((Store.bind {} 0 (.pointer 1)).store.bind 1 (.function [2] 3)).store.unify 3 2).store
    s.Built (fun _ => True) ∧ s.Encloses 0 3 ∧ s.Encloses 0 1 ∧
      s.unify 0 3 = .failed s (.infinite 3 "?2" "&(?2) -> ?2") ∧
      s.unify 3 0 = .failed s (.infinite 3 "?2" "&(?2) -> ?2") ∧
      s.unify 1 0 = .failed s (.mismatch .shape 1 0 "(?2) -> ?2" "&(?2) -> ?2") ∧
      s.bind 3 (.record [("f", 4), ("g", 0)]) =
        .failed s (.infinite 3 "?2" "\x7bf:?4,g:&(?2) -> ?2\x7d") := by
  intro s
  have built : s.Built fun _ => True := .unify (.bind (.bind .empty 0 trivial) 1 trivial) 3 2
  have rooted := built.formed.rooted
  have pointer : s.term? 0 = some (.pointer 1) := by decide +kernel
  have function : s.term? 1 = some (.function [2] 3) := by decide +kernel
  have unknown : s.term? 3 = none := by decide +kernel
  have deep : s.Encloses 0 3 := (encloses_iff_occurs rooted pointer).mpr (by decide +kernel)
  have flat : s.Encloses 0 1 := (encloses_iff_occurs rooted pointer).mpr (by decide +kernel)
  have cyclic : s.infinite 3 (s.find 3) (.pointer 1) = .infinite 3 "?2" "&(?2) -> ?2" := by
    decide +kernel
  obtain ⟨-, refused, unbindable⟩ := occurs_check_exact built
  obtain ⟨t, bound, inner, outer⟩ := refused 0 3 deep
  obtain ⟨_, -, -, outer'⟩ := refused 0 1 flat
  obtain rfl := Option.some.inj (pointer.symm.trans bound)
  rw [cyclic] at inner outer
  refine ⟨built, deep, flat, inner.otherwise ?_, outer.otherwise ?_, ?_, ?_⟩
  · intro _ _ _ right
    rw [unknown] at right
    cases right
  · intro _ _ left
    rw [unknown] at left
    cases left
  · have shapes : s.mismatch .shape 1 0 (.function [2] 3) (.pointer 1) =
        .mismatch .shape 1 0 "(?2) -> ?2" "&(?2) -> ?2" := by decide +kernel
    rw [← shapes]
    exact outer'.mismatched _ _ _ function pointer rfl
  · have cyclic' : s.infinite 3 (s.find 3) (.record [("f", 4), ("g", 0)]) =
        .infinite 3 "?2" "\x7bf:?4,g:&(?2) -> ?2\x7d" := by decide +kernel
    rw [← cyclic']
    exact unbindable 3 _ ((occurs_iff rooted).mp (by decide +kernel))

end Store

end TypeInference
