import Mathlib.Data.Finset.Card
import TypeInference.Store.Basic

/-!
# The forest of handles

Following parents from a handle ends at a root as long as only roots are ever put below other
roots. What linking one root does to the root of every handle is said once, in `find_link`; classes,
bound terms and the number of bound roots follow from it.
-/

set_option autoImplicit false

namespace TypeInference

/-- A new entry at a key that has none leaves all entries as they were. -/
theorem getElem?_insert_of_fresh {α : Type} {map : Std.TreeMap Handle α} {k x : Handle} {a b : α}
    (fresh : map[k]? = none) (found : map[x]? = some b) : (map.insert k a)[x]? = some b := by
  have differ : ¬ compare k x = .eq := by
    intro same
    obtain rfl := Std.LawfulEqOrd.eq_of_compare same
    rw [fresh] at found
    cases found
  rw [Std.TreeMap.getElem?_insert, if_neg differ, found]

namespace Store

variable {s : Store}

/-- A handle without a parent. -/
def IsRoot (s : Store) (x : Handle) : Prop := s.parents[x]? = none

/-- Every handle has a root above it. -/
def Rooted (s : Store) : Prop := ∀ x, s.IsRoot (s.find x)

private theorem climb_of_isRoot {x : Handle} (root : s.IsRoot x) (steps : Nat) :
    s.climb steps x = x := by
  cases steps with
  | zero => rfl
  | succ steps => simp only [climb, show s.parents[x]? = none from root]

theorem find_of_isRoot {x : Handle} (root : s.IsRoot x) : s.find x = x := climb_of_isRoot root _

namespace Rooted

theorem find_find (rooted : s.Rooted) (x : Handle) : s.find (s.find x) = s.find x :=
  find_of_isRoot (rooted x)

end Rooted

theorem rooted_empty : Rooted {} := by
  intro x
  exact Std.TreeMap.getElem?_emptyc

section Link

variable {child root : Handle}

theorem parents_link_cases {x p : Handle} (parent : (s.link child root).parents[x]? = some p) :
    x = child ∧ p = root ∨ s.parents[x]? = some p := by
  rw [parents_link, Std.TreeMap.getElem?_insert] at parent
  split at parent
  · rename_i same
    exact .inl ⟨(Std.LawfulEqOrd.eq_of_compare same).symm, (Option.some.inj parent).symm⟩
  · exact .inr parent

theorem isRoot_link_iff {x : Handle} : (s.link child root).IsRoot x ↔ x ≠ child ∧ s.IsRoot x := by
  rw [IsRoot, parents_link, Std.TreeMap.getElem?_insert]
  split
  · rename_i equal
    simp [Std.LawfulEqOrd.eq_of_compare equal]
  · rename_i differs
    have ne : x ≠ child := by
      rintro rfl
      exact differs Std.ReflCmp.compare_self
    simp [ne, IsRoot]

private theorem climb_link (below : s.IsRoot child) (above : s.IsRoot root) (ne : child ≠ root)
    {steps : Nat} {x : Handle} (ends : s.IsRoot (s.climb steps x)) :
    (s.link child root).climb (steps + 1) x =
      if s.climb steps x = child then root else s.climb steps x := by
  have stays : (s.link child root).IsRoot root := isRoot_link_iff.mpr ⟨ne.symm, above⟩
  have linked : (s.link child root).parents[child]? = some root := by simp
  have start : ∀ {y}, s.IsRoot y → ∀ more, (s.link child root).climb (more + 1) y =
      if y = child then root else y := by
    intro y isRoot more
    split
    · rename_i equal
      rw [equal, climb, linked]
      exact climb_of_isRoot stays _
    · rename_i differs
      exact climb_of_isRoot (isRoot_link_iff.mpr ⟨differs, isRoot⟩) _
  induction steps generalizing x with
  | zero => exact start ends 0
  | succ steps ih =>
    cases parent : s.parents[x]? with
    | none =>
      rw [climb_of_isRoot parent]
      exact start parent _
    | some p =>
      have differs : x ≠ child := by
        rintro rfl
        rw [IsRoot, parent] at below
        cases below
      have kept : (s.link child root).parents[x]? = some p := by
        rw [parents_link, Std.TreeMap.getElem?_insert, if_neg, parent]
        exact fun equal => differs (Std.LawfulEqOrd.eq_of_compare equal).symm
      rw [climb, parent] at ends
      rw [climb, kept, climb, parent]
      exact ih ends

/-- Linking moves the handles of one class to the other root and no handle else. -/
theorem find_link (rooted : s.Rooted) (below : s.IsRoot child) (above : s.IsRoot root)
    (ne : child ≠ root) (x : Handle) :
    (s.link child root).find x = if s.find x = child then root else s.find x := by
  have larger : (s.link child root).parents.size = s.parents.size + 1 := by
    have fresh : child ∉ s.parents := by
      rw [Std.TreeMap.mem_iff_isSome_getElem?, show s.parents[child]? = none from below]
      simp
    rw [parents_link, Std.TreeMap.size_insert, if_neg (Std.TreeMap.contains_iff_mem.not.mpr fresh)]
  rw [find, larger]
  exact climb_link below above ne (rooted x)

theorem rooted_link (rooted : s.Rooted) (below : s.IsRoot child) (above : s.IsRoot root)
    (ne : child ≠ root) : (s.link child root).Rooted := by
  intro x
  rw [find_link rooted below above ne, isRoot_link_iff]
  split
  · exact ⟨ne.symm, above⟩
  · rename_i differs
    exact ⟨differs, rooted x⟩

end Link

theorem rooted_assign (rooted : s.Rooted) (r : Handle) (t : Term) : (s.assign r t).Rooted := by
  intro x
  rw [find_assign]
  exact rooted x

theorem terms_assign_getElem? (s : Store) (r : Handle) (t : Term) (x : Handle) :
    (s.assign r t).terms[x]? = if x = r then some t else s.terms[x]? := by
  rw [terms_assign, Std.TreeMap.getElem?_insert]
  by_cases equal : x = r
  · rw [equal, if_pos Std.ReflCmp.compare_self, if_pos rfl]
  · rw [if_neg equal, if_neg fun same => equal (Std.LawfulEqOrd.eq_of_compare same).symm]

/-- The roots that have a term. -/
def boundRoots (s : Store) : Finset Handle :=
  s.terms.keys.toFinset.filter fun r => s.parents[r]? = none

theorem mem_boundRoots {r : Handle} :
    r ∈ s.boundRoots ↔ s.IsRoot r ∧ ∃ t, s.terms[r]? = some t := by
  rw [boundRoots, Finset.mem_filter, List.mem_toFinset, Std.TreeMap.mem_keys,
    Std.TreeMap.mem_iff_isSome_getElem?, Option.isSome_iff_exists, and_comm]
  rfl

theorem card_boundRoots_le (s : Store) : s.boundRoots.card ≤ s.terms.size := by
  calc s.boundRoots.card
      ≤ s.terms.keys.toFinset.card := Finset.card_filter_le _ _
    _ ≤ s.terms.keys.length := List.toFinset_card_le _
    _ = s.terms.size := Std.TreeMap.length_keys

theorem boundRoots_link (s : Store) (child root : Handle) :
    (s.link child root).boundRoots = s.boundRoots.erase child := by
  ext r
  rw [Finset.mem_erase, mem_boundRoots, mem_boundRoots, isRoot_link_iff, terms_link, and_assoc]

end Store

end TypeInference
