import Mathlib.Data.Finset.Card
import Mathlib.Logic.Relation
import Mathlib.Order.WellFounded
import TypeInference.Proofs.Reach
import TypeInference.Store.Expand

/-!
# Stores without cycles

No class lies inside itself in a store where the occurs check stands before every link and every
binding. Such a store can be read out: each type is that of its term, whose handles are read out in
the same way, and properties of handles are proved by induction from the inside out.
-/

set_option autoImplicit false

namespace TypeInference

/-- Merging the points of `M` into one keeps a relation well founded when no edge out of the merged
point leads back to it. -/
private theorem wellFounded_of_merge {α : Type} {E E' : α → α → Prop} {M : α → Prop}
    (wf : WellFounded E)
    (outside : ∀ r x, ¬ M x → E' r x → E r x ∨ M r ∧ ∃ r₀, M r₀ ∧ E r₀ x)
    (inside : ∀ r x, M x → E' r x → ∀ z, M z → ¬ Relation.ReflTransGen E z r) :
    WellFounded E' := by
  -- Points from which no merged point can be reached keep their edges.
  have apart : ∀ x, (∀ z, M z → ¬ Relation.ReflTransGen E z x) → Acc E' x := by
    intro x
    induction x using wf.induction with
    | _ x ih =>
      intro unreached
      refine ⟨x, fun r edge => ?_⟩
      rcases outside r x (fun merged => unreached x merged .refl) edge with
        old | ⟨-, r₀, merged, old⟩
      · exact ih r old fun z merged path => unreached z merged (path.tail old)
      · exact absurd (.single old) (unreached r₀ merged)
  have merged : ∀ x, M x → Acc E' x := fun x isMerged =>
    ⟨x, fun r edge => apart r (inside r x isMerged edge)⟩
  refine ⟨fun x => ?_⟩
  induction x using wf.induction with
  | _ x ih =>
    by_cases isMerged : M x
    · exact merged x isMerged
    · refine ⟨x, fun r edge => ?_⟩
      rcases outside r x isMerged edge with old | ⟨isMerged', -⟩
      · exact ih r old
      · exact merged r isMerged'

namespace Store

variable {s : Store}

/-- No class lies inside itself, at whatever depth. -/
def Acyclic (s : Store) : Prop := WellFounded s.Inside

theorem acyclic_empty : Acyclic {} := by
  refine ⟨fun x => ⟨x, fun r inside => ?_⟩⟩
  obtain ⟨-, t, bound, -⟩ := inside
  rw [show (Store.terms {})[x]? = none from Std.TreeMap.getElem?_emptyc] at bound
  cases bound

namespace Acyclic

theorem not_within_child (acyclic : s.Acyclic) {x c : Handle} {t : Term} (isRoot : s.IsRoot x)
    (bound : s.terms[x]? = some t) (member : c ∈ t.children) : ¬ s.Within x c := by
  intro within
  have inside : s.Inside (s.find c) x := ⟨isRoot, t, bound, c, member, rfl⟩
  have loop : Relation.TransGen s.Inside x x := Relation.TransGen.tail' within inside
  exact acyclic.transGen.asymmetric x x loop loop

theorem link (rooted : s.Rooted) (acyclic : s.Acyclic) {child root : Handle}
    (below : s.IsRoot child) (above : s.IsRoot root) (ne : child ≠ root)
    (apart : ∀ t, s.terms[root]? = some t → ∀ c ∈ t.children, ¬ s.Within child c) :
    (s.link child root).Acyclic := by
  refine wellFounded_of_merge (M := fun x => x = child ∨ x = root) acyclic ?_ ?_
  · rintro r x outside ⟨isRoot, t, bound, c, member, rfl⟩
    rw [terms_link] at bound
    have isRoot' := (isRoot_link_iff.mp isRoot).2
    rw [find_link rooted below above ne]
    split
    · rename_i moved
      exact .inr ⟨.inr rfl, child, .inl rfl, isRoot', t, bound, c, member, moved⟩
    · exact .inl ⟨isRoot', t, bound, c, member, rfl⟩
  · rintro r x merged ⟨isRoot, t, bound, c, member, rfl⟩
    obtain rfl : x = root := merged.resolve_left (isRoot_link_iff.mp isRoot).1
    have notChild : s.find c ≠ child := fun equal =>
      apart t bound c member (equal ▸ Within.self s c)
    rw [find_link rooted below above ne, if_neg notChild]
    rintro z (rfl | rfl)
    · exact apart t bound c member
    · exact acyclic.not_within_child above bound member

theorem assign (acyclic : s.Acyclic) {r : Handle} {t : Term}
    (apart : ∀ c ∈ t.children, ¬ s.Within r c) : (s.assign r t).Acyclic := by
  refine wellFounded_of_merge (M := fun x => x = r) acyclic ?_ ?_
  · rintro k x differs ⟨isRoot, u, bound, c, member, rfl⟩
    rw [terms_assign_getElem?, if_neg differs] at bound
    rw [find_assign]
    exact .inl ⟨isRoot, u, bound, c, member, rfl⟩
  · rintro k x rfl ⟨isRoot, u, bound, c, member, rfl⟩ z rfl
    rw [terms_assign_getElem?, if_pos rfl] at bound
    obtain rfl := Option.some.inj bound
    rw [find_assign]
    exact apart c member

/-- Induction from the inside out: a handle after the handles of the term bound to its class. -/
theorem inside_out (rooted : s.Rooted) (acyclic : s.Acyclic) {P : Handle → Prop}
    (step : ∀ x, (∀ t, s.term? x = some t → ∀ c ∈ t.children, P c) → P x) (x : Handle) : P x := by
  have byRoot : ∀ r y, s.find y = r → P y := by
    intro r
    induction r using acyclic.induction with
    | _ r ih =>
      rintro y rfl
      refine step y fun t bound c member => ?_
      exact ih (s.find c) ⟨rooted y, t, bound, c, member, rfl⟩ c rfl
  exact byRoot _ x rfl

end Acyclic

end Store

theorem Term.toTy_congr {t : Term} {f g : Handle → Ty} (agree : ∀ c ∈ t.children, f c = g c) :
    t.toTy f = t.toTy g := by
  cases t with
  | int => rfl
  | pointer target => rw [toTy, toTy, agree target (by simp [children])]
  | function params result =>
    have params_eq : params.map f = params.map g :=
      List.map_congr_left fun c member => agree c (by simp [children, member])
    simp only [toTy, params_eq, agree result (by simp [children])]
  | record fields =>
    rw [toTy, toTy]
    exact congrArg Ty.record (List.map_congr_left fun field member =>
      congrArg (Prod.mk field.1) (agree field.2 (List.mem_map_of_mem member)))

namespace Store

variable {s : Store}

open Classical in
/-- The bound roots within a handle's class. -/
noncomputable def boundWithin (s : Store) (x : Handle) : Finset Handle :=
  s.boundRoots.filter fun r => s.Within r x

theorem mem_boundWithin {r x : Handle} :
    r ∈ s.boundWithin x ↔ r ∈ s.boundRoots ∧ s.Within r x := by
  classical
  rw [boundWithin, Finset.mem_filter]

theorem card_boundWithin_le (s : Store) (x : Handle) : (s.boundWithin x).card ≤ s.terms.size := by
  classical
  exact (Finset.card_filter_le _ _).trans s.card_boundRoots_le

private theorem find_mem_boundWithin (rooted : s.Rooted) {x : Handle} {t : Term}
    (bound : s.term? x = some t) : s.find x ∈ s.boundWithin x :=
  mem_boundWithin.mpr ⟨mem_boundRoots.mpr ⟨rooted x, t, bound⟩, .self s x⟩

theorem card_boundWithin_pos (rooted : s.Rooted) {x : Handle} {t : Term}
    (bound : s.term? x = some t) : 0 < (s.boundWithin x).card :=
  Finset.card_pos.mpr ⟨_, find_mem_boundWithin rooted bound⟩

/-- Fewer bound roots lie within a handle of a bound term than within the class itself. -/
theorem card_boundWithin_child_lt (rooted : s.Rooted) (acyclic : s.Acyclic) {x c : Handle}
    {t : Term} (bound : s.term? x = some t) (member : c ∈ t.children) :
    (s.boundWithin c).card < (s.boundWithin x).card := by
  apply Finset.card_lt_card
  refine (Finset.ssubset_iff_of_subset ?_).mpr ⟨s.find x, ?_, ?_⟩
  · intro r inChild
    obtain ⟨isBound, within⟩ := mem_boundWithin.mp inChild
    have inRoot := (within_iff rooted bound).mpr (.inr ⟨c, member, within⟩)
    exact mem_boundWithin.mpr ⟨isBound, inRoot⟩
  · exact find_mem_boundWithin rooted bound
  · intro inChild
    exact acyclic.not_within_child (rooted x) bound member (mem_boundWithin.mp inChild).2

theorem unfold_of_unbound {x : Handle} (unbound : s.term? x = none) (depth : Nat) :
    s.unfold depth x = .var (s.find x) := by
  unfold Store.unfold
  rw [unbound]

theorem unfold_of_bound {x : Handle} {t : Term} (bound : s.term? x = some t) (depth : Nat) :
    s.unfold (depth + 1) x = t.toTy (s.unfold depth) := by
  unfold Store.unfold
  rw [bound]

private theorem unfold_eq (rooted : s.Rooted) (acyclic : s.Acyclic) {depth depth' : Nat}
    {x : Handle} (enough : (s.boundWithin x).card ≤ depth)
    (enough' : (s.boundWithin x).card ≤ depth') : s.unfold depth x = s.unfold depth' x := by
  induction x using acyclic.inside_out rooted generalizing depth depth' with
  | step x ih =>
    cases bound : s.term? x with
    | none => rw [unfold_of_unbound bound, unfold_of_unbound bound]
    | some t =>
      have positive := card_boundWithin_pos rooted bound
      obtain ⟨n, rfl⟩ : ∃ n, depth = n + 1 := ⟨depth - 1, by omega⟩
      obtain ⟨m, rfl⟩ : ∃ m, depth' = m + 1 := ⟨depth' - 1, by omega⟩
      rw [unfold_of_bound bound, unfold_of_bound bound]
      apply Term.toTy_congr
      intro c inTerm
      have fewer := card_boundWithin_child_lt rooted acyclic bound inTerm
      exact ih t bound c inTerm (by omega) (by omega)

theorem resolve_of_unbound {x : Handle} (unbound : s.term? x = none) :
    s.resolve x = .var (s.find x) := unfold_of_unbound unbound _

/-- A bound class is read out as its term, with the handles inside read out. -/
theorem resolve_of_bound (rooted : s.Rooted) (acyclic : s.Acyclic) {x : Handle} {t : Term}
    (bound : s.term? x = some t) : s.resolve x = t.toTy s.resolve := by
  have enough := s.card_boundWithin_le x
  rw [resolve, unfold_eq rooted acyclic enough (enough.trans (Nat.le_succ _)),
    unfold_of_bound bound]
  rfl

end Store

end TypeInference
