import TypeInference.Proofs.Ground
import TypeInference.Proofs.Unify

/-!
# Handles in use

A store speaks of the handles that have a parent, are one, are bound to a term or stand inside one.
Calls bring in the handles of their arguments and no other. So a set that holds all of those holds
every handle of the store, and a handle outside the set is as good as new.
-/

set_option autoImplicit false

namespace TypeInference

namespace Store

variable {s : Store} {S : Handle → Prop}

/-- The store speaks of handles in the set only. -/
structure Over (s : Store) (S : Handle → Prop) : Prop where
  parents : ∀ x p : Handle, s.parents[x]? = some p → S x ∧ S p
  terms : ∀ (r : Handle) (t : Term), s.terms[r]? = some t → S r ∧ ∀ c ∈ t.children, S c

theorem over_empty (S : Handle → Prop) : Over {} S where
  parents x p parent := by
    rw [Std.TreeMap.getElem?_emptyc] at parent
    cases parent
  terms r t bound := by
    rw [Std.TreeMap.getElem?_emptyc] at bound
    cases bound

namespace Over

theorem mono (uses : s.Over S) {S' : Handle → Prop} (wider : ∀ h, S h → S' h) : s.Over S' where
  parents x p parent := (uses.parents x p parent).imp (wider x) (wider p)
  terms r t bound :=
    (uses.terms r t bound).imp (wider r) fun inside c member => wider c (inside c member)

private theorem climb (uses : s.Over S) (steps : Nat) {x : Handle} (known : S x) :
    S (s.climb steps x) := by
  induction steps generalizing x with
  | zero => exact known
  | succ steps ih =>
    rw [Store.climb]
    split
    · exact known
    · rename_i parent found
      exact ih (uses.parents x parent found).2

/-- A handle in the set has its root there. -/
theorem find (uses : s.Over S) {x : Handle} (known : S x) : S (s.find x) := uses.climb _ known

theorem children (uses : s.Over S) {x c : Handle} {t : Term} (bound : s.term? x = some t)
    (member : c ∈ t.children) : S c :=
  (uses.terms _ t bound).2 c member

/-- A handle outside the set is a class of its own. -/
theorem isRoot_of_new (uses : s.Over S) {h : Handle} (new : ¬ S h) : s.IsRoot h := by
  cases parent : s.parents[h]? with
  | none => exact parent
  | some p => exact absurd (uses.parents h p parent).1 new

theorem unbound_of_new (uses : s.Over S) {h : Handle} (new : ¬ S h) : s.terms[h]? = none := by
  cases bound : s.terms[h]? with
  | none => rfl
  | some t => exact absurd (uses.terms h t bound).1 new

private theorem link (uses : s.Over S) {child root : Handle} (below : S child) (above : S root) :
    (s.link child root).Over S where
  parents x p parent := by
    rcases parents_link_cases parent with ⟨rfl, rfl⟩ | earlier
    · exact ⟨below, above⟩
    · exact uses.parents x p earlier
  terms := uses.terms

private theorem assign (uses : s.Over S) {r : Handle} {t : Term} (root : S r)
    (inside : ∀ c ∈ t.children, S c) : (s.assign r t).Over S where
  parents := uses.parents
  terms x u bound := by
    rw [terms_assign_getElem?] at bound
    split at bound
    · rename_i same
      obtain rfl := Option.some.inj bound
      exact ⟨same ▸ root, inside⟩
    · exact uses.terms x u bound

end Over

private theorem Sides.over_link {x y child root : Handle} (sides : s.Sides x y child root)
    (uses : s.Over S) (left : S x) (right : S y) : (s.link child root).Over S := by
  rcases sides.order with ⟨rfl, rfl⟩ | ⟨rfl, rfl⟩
  · exact uses.link (uses.find left) (uses.find right)
  · exact uses.link (uses.find right) (uses.find left)

private theorem Run.over {equations : List Equation} {r : Report} (run : Run s equations r)
    (uses : s.Over S) (known : ∀ e ∈ equations, S e.1 ∧ S e.2) : r.store.Over S := by
  induction run with
  | done s => exact uses
  | same met tail ih => exact ih uses (List.forall_mem_cons.mp known).2
  | join met tail ih =>
    obtain ⟨⟨left, right⟩, others⟩ := List.forall_mem_cons.mp known
    cases met with
    | join sides unbound apart => exact ih (sides.over_link uses left right) others
  | merge met tail ih =>
    obtain ⟨⟨left, right⟩, others⟩ := List.forall_mem_cons.mp known
    cases met with
    | merge sides bound bound' paired apart =>
      refine ih (sides.over_link uses left right) fun e member => ?_
      rcases List.mem_append.mp member with inParts | inRest
      · obtain ⟨inLeft, inRight⟩ := Term.mem_children_of_pairUp paired inParts
        exact ⟨uses.children bound inLeft, uses.children bound' inRight⟩
      · exact others e inRest
  | clash met => exact uses

theorem over_unify (rooted : s.Rooted) (uses : s.Over S) {x y : Handle} (left : S x)
    (right : S y) : (s.unify x y).store.Over S :=
  (run_solveAll rooted [(x, y)]).over uses (by simp [left, right])

theorem over_bind (rooted : s.Rooted) (uses : s.Over S) {x : Handle} {t : Term} (known : S x)
    (inside : ∀ c ∈ t.children, S c) : (s.bind x t).store.Over S := by
  rw [bind]
  split
  · exact uses
  · split
    · exact uses.assign (uses.find known) inside
    · rename_i u bound
      split
      · exact uses
      · rename_i parts paired
        refine (run_solveAll rooted parts).over uses fun e member => ?_
        obtain ⟨inLeft, inRight⟩ := Term.mem_children_of_pairUp paired member
        exact ⟨uses.children bound inLeft, inside e.2 inRight⟩

end Store

end TypeInference
