import TypeInference.Proofs.Ground
import TypeInference.Proofs.Representation

/-!
# What a call can touch

Unification goes from a class to the handles inside its term and nowhere else. So a call changes the
forest only among the roots that can be reached from its arguments in the store it starts with, also
when it ends in a conflict halfway. Reachability itself changes while classes merge; what is kept is
a set of roots that no edge leaves, and every link is made inside it.
-/

set_option autoImplicit false

namespace TypeInference

namespace Store

variable {s s' s'' : Store} {R R' : Handle → Prop}

/-- The root `k` is that of one of the handles or lies inside the class of one, at some depth. -/
def Spans (s : Store) (xs : List Handle) (k : Handle) : Prop := ∃ x ∈ xs, s.Within k x

private theorem spans_find {xs : List Handle} {x : Handle} (member : x ∈ xs) :
    s.Spans xs (s.find x) :=
  ⟨x, member, .self s x⟩

private theorem spans_iff_mem_reach (rooted : s.Rooted) {xs : List Handle} {k : Handle} :
    s.Spans xs k ↔ k ∈ (s.reach xs).seen := (mem_seen_reach rooted).symm

/-- No edge leads out of the set. -/
def Closed (s : Store) (R : Handle → Prop) : Prop := ∀ j k, s.Inside j k → R k → R j

private theorem closed_spans (s : Store) (xs : List Handle) : s.Closed (s.Spans xs) := by
  rintro j k inside ⟨x, member, within⟩
  exact ⟨x, member, .head inside within⟩

section Link

variable {child root : Handle}

private theorem covers_link (rooted : s.Rooted) (below : s.IsRoot child) (above : s.IsRoot root)
    (ne : child ≠ root) (inRegion : R root) {h : Handle} (covered : R (s.find h)) :
    R ((s.link child root).find h) := by
  rw [find_link rooted below above ne]
  split
  · exact inRegion
  · exact covered

private theorem Closed.link (rooted : s.Rooted) (closed : s.Closed R) (below : s.IsRoot child)
    (above : s.IsRoot root) (ne : child ≠ root) (inRegion : R root) :
    (s.link child root).Closed R := by
  rintro j k ⟨isRoot, t, bound, c, member, rfl⟩ inside
  have inner : R (s.find c) :=
    closed _ k ⟨(isRoot_link_iff.mp isRoot).2, t, bound, c, member, rfl⟩ inside
  exact covers_link rooted below above ne inRegion inner

end Link

/-- The forest has grown by links between roots of the set. -/
structure LinksIn (s : Store) (R : Handle → Prop) (s' : Store) : Prop where
  kept : ∀ k p : Handle, s.parents[k]? = some p → s'.parents[k]? = some p
  added : ∀ k p : Handle, s'.parents[k]? = some p →
    s.parents[k]? = some p ∨ (s.IsRoot k ∧ R k) ∧ s.IsRoot p ∧ R p

namespace LinksIn

private theorem refl (s : Store) (R : Handle → Prop) : s.LinksIn R s :=
  ⟨fun _ _ => id, fun _ _ => .inl⟩

private theorem isRoot (links : s.LinksIn R s') {k : Handle} (root : s'.IsRoot k) : s.IsRoot k := by
  cases parent : s.parents[k]? with
  | none => exact parent
  | some p =>
    rw [IsRoot, links.kept k p parent] at root
    cases root

private theorem trans (first : s.LinksIn R s') (second : s'.LinksIn R s'') : s.LinksIn R s'' where
  kept k p parent := second.kept k p (first.kept k p parent)
  added k p parent := by
    rcases second.added k p parent with earlier | ⟨⟨root, inRegion⟩, root', inRegion'⟩
    · exact first.added k p earlier
    · exact .inr ⟨⟨first.isRoot root, inRegion⟩, first.isRoot root', inRegion'⟩

private theorem mono (links : s.LinksIn R s') (wider : ∀ k, R k → R' k) : s.LinksIn R' s' where
  kept := links.kept
  added k p parent := by
    refine (links.added k p parent).imp_right ?_
    rintro ⟨⟨root, inRegion⟩, root', inRegion'⟩
    exact ⟨⟨root, wider k inRegion⟩, root', wider p inRegion'⟩

private theorem link {child root : Handle} (below : s.IsRoot child) (above : s.IsRoot root)
    (inRegion : R child) (inRegion' : R root) : s.LinksIn R (s.link child root) where
  kept _ _ parent := getElem?_insert_of_fresh below parent
  added k p parent := by
    rcases parents_link_cases parent with ⟨rfl, rfl⟩ | earlier
    · exact .inr ⟨⟨below, inRegion⟩, above, inRegion'⟩
    · exact .inl earlier

private theorem isRoot_of_outside (links : s.LinksIn R s') {k : Handle} (root : s.IsRoot k)
    (outside : ¬ R k) : s'.IsRoot k := by
  cases parent : s'.parents[k]? with
  | none => exact parent
  | some p =>
    rcases links.added k p parent with earlier | ⟨⟨-, inRegion⟩, -⟩
    · rw [IsRoot, earlier] at root
      cases root
    · exact absurd inRegion outside

private theorem find_eq (links : s.LinksIn R s') (rooted : s.Rooted) (rooted' : s'.Rooted)
    {h : Handle} (outside : ¬ R (s.find h)) : s'.find h = s.find h := by
  have path : s.Ascends h (s.find h) := ascends_climb s _ h
  have path' : s'.Ascends h (s.find h) := Relation.ReflTransGen.mono links.kept _ _ path
  exact (ascends_iff_find rooted').mp ⟨path', links.isRoot_of_outside (rooted h) outside⟩

end LinksIn

/-- The handles of some equations are of classes in the set. -/
def Covers (s : Store) (R : Handle → Prop) (equations : List Equation) : Prop :=
  ∀ e ∈ equations, R (s.find e.1) ∧ R (s.find e.2)

section Steps

variable {x y child root : Handle} {equations : List Equation}

private theorem Sides.linksIn (sides : s.Sides x y child root) (rooted : s.Rooted)
    (closed : s.Closed R) (ends : R (s.find x) ∧ R (s.find y)) (covered : s.Covers R equations)
    (further : (s.link child root).Rooted → (s.link child root).Closed R →
      (s.link child root).Covers R equations → (s.link child root).LinksIn R s') :
    s.LinksIn R s' := by
  obtain ⟨below, above, ne, order⟩ := sides
  have inRegion : R child ∧ R root := by
    rcases order with ⟨rfl, rfl⟩ | ⟨rfl, rfl⟩
    · exact ends
    · exact ends.symm
  have step := LinksIn.link below above inRegion.1 inRegion.2
  refine step.trans (further (rooted_link rooted below above ne)
    (closed.link rooted below above ne inRegion.2) fun e member => ?_)
  obtain ⟨left, right⟩ := covered e member
  exact ⟨covers_link rooted below above ne inRegion.2 left,
    covers_link rooted below above ne inRegion.2 right⟩

private theorem covers_pairs (rooted : s.Rooted) (closed : s.Closed R)
    (ends : R (s.find x) ∧ R (s.find y)) {t u : Term} (left : s.term? x = some t)
    (right : s.term? y = some u) (paired : t.pairUp u = .ok equations) :
    s.Covers R equations := by
  intro e member
  obtain ⟨inLeft, inRight⟩ := Term.mem_children_of_pairUp paired member
  exact ⟨closed _ _ ⟨rooted x, t, left, e.1, inLeft, rfl⟩ ends.1,
    closed _ _ ⟨rooted y, u, right, e.2, inRight, rfl⟩ ends.2⟩

end Steps

private theorem Run.linksIn {equations : List Equation} {r : Report} (run : Run s equations r)
    (rooted : s.Rooted) (closed : s.Closed R) (covered : s.Covers R equations) :
    s.LinksIn R r.store := by
  induction run with
  | done s => exact .refl s R
  | same met tail ih => exact ih rooted closed (List.forall_mem_cons.mp covered).2
  | join met tail ih =>
    obtain ⟨ends, others⟩ := List.forall_mem_cons.mp covered
    cases met with
    | join sides unbound apart => exact sides.linksIn rooted closed ends others ih
  | merge met tail ih =>
    obtain ⟨ends, others⟩ := List.forall_mem_cons.mp covered
    cases met with
    | merge sides left right paired apart =>
      -- The set is closed before the link, where both terms can still be seen.
      have parts := covers_pairs rooted closed ends left right paired
      exact sides.linksIn rooted closed ends (List.forall_mem_append.mpr ⟨parts, others⟩) ih
  | clash met => exact .refl _ R

/-- Outside the set, classes and their terms are as they were; inside it, the forest has grown by
links between roots. -/
structure Confined (s : Store) (R : Handle → Prop) (s' : Store) : Prop extends s.LinksIn R s' where
  find_eq : ∀ h, ¬ R (s.find h) → s'.find h = s.find h
  term?_eq : ∀ h, ¬ R (s.find h) → s'.term? h = s.term? h

private theorem Confined.refl (s : Store) (R : Handle → Prop) : s.Confined R s :=
  ⟨.refl s R, fun _ _ => rfl, fun _ _ => rfl⟩

private theorem LinksIn.confined (links : s.LinksIn R s') (rooted : s.Rooted) (rooted' : s'.Rooted)
    (sameTerms : s'.terms = s.terms) : s.Confined R s' where
  toLinksIn := links
  find_eq _ outside := links.find_eq rooted rooted' outside
  term?_eq h outside := by rw [term?, term?, sameTerms, links.find_eq rooted rooted' outside]

private theorem confined_assign {x : Handle} (inRegion : R (s.find x)) (t : Term) :
    s.Confined R (s.assign (s.find x) t) where
  kept _ _ := id
  added _ _ := .inl
  find_eq h _ := find_assign s _ t h
  term?_eq h outside := by
    have other : s.find h ≠ s.find x := fun same => outside (same ▸ inRegion)
    rw [term?, term?, find_assign, terms_assign_getElem?, if_neg other]

private theorem confined_unify (formed : s.Formed) (x y : Handle) :
    s.Confined (s.Spans [x, y]) (s.unify x y).store := by
  have run := run_solveAll formed.rooted [(x, y)]
  have links := run.linksIn formed.rooted (closed_spans s [x, y]) (by
    intro e member
    obtain rfl := List.mem_singleton.mp member
    exact ⟨spans_find (by simp), spans_find (by simp)⟩)
  exact links.confined formed.rooted (run.formed formed).rooted run.terms_eq

section Bind

variable {x : Handle} {t u : Term}

private theorem not_spans_children (formed : s.Formed) (bound : s.term? x = some u)
    (apart : ¬ s.occurs (s.find x) t) : ¬ s.Spans (u.children ++ t.children) (s.find x) := by
  rintro ⟨c, member, within⟩
  rcases List.mem_append.mp member with own | other
  · exact formed.acyclic.not_within_child (formed.rooted x) bound own within
  · exact apart ((occurs_iff formed.rooted).mpr ⟨c, other, within⟩)

private theorem Spans.of_children (rooted : s.Rooted) (bound : s.term? x = some u)
    {xs : List Handle} {k : Handle} (spans : s.Spans (u.children ++ xs) k) :
    s.Spans (x :: xs) k := by
  obtain ⟨c, member, within⟩ := spans
  rcases List.mem_append.mp member with own | other
  · exact ⟨x, List.mem_cons_self, (within_iff rooted bound).mpr (.inr ⟨c, own, within⟩)⟩
  · exact ⟨c, List.mem_cons_of_mem x other, within⟩

private theorem linksIn_matched (formed : s.Formed) {parts : List Equation}
    (paired : u.pairUp t = .ok parts) :
    s.LinksIn (s.Spans (u.children ++ t.children)) (s.solveAll parts).store := by
  refine (run_solveAll formed.rooted parts).linksIn formed.rooted (closed_spans s _) ?_
  intro e member
  obtain ⟨left, right⟩ := Term.mem_children_of_pairUp paired member
  exact ⟨spans_find (List.mem_append_left _ left), spans_find (List.mem_append_right _ right)⟩

/-- What binding a term can do: link roots that the class or the term reaches, but never the root of
the class itself, or give that root a term if it has none. -/
structure BindsLocally (s : Store) (x : Handle) (t : Term) (r : Report) : Prop where
  confined : s.Confined (s.Spans (x :: t.children)) r.store
  isRoot : r.store.IsRoot (s.find x)
  terms : r.store.terms = s.terms ∨ s.term? x = none ∧ r.conflict? = none ∧
    r.store.terms = s.terms.insert (s.find x) t

private theorem BindsLocally.of_same (rooted : s.Rooted) {r : Report} (same : r.store = s) :
    s.BindsLocally x t r where
  confined := same ▸ .refl _ _
  isRoot := same ▸ rooted x
  terms := .inl (congrArg Store.terms same)

private theorem bindsLocally_matched (formed : s.Formed) (bound : s.term? x = some u)
    (apart : ¬ s.occurs (s.find x) t) {parts : List Equation} (paired : u.pairUp t = .ok parts) :
    s.BindsLocally x t (s.solveAll parts) := by
  have run := run_solveAll formed.rooted parts
  have links := linksIn_matched formed paired
  have wider := links.mono fun k spans => Spans.of_children formed.rooted bound spans
  exact ⟨wider.confined formed.rooted (run.formed formed).rooted run.terms_eq,
    links.isRoot_of_outside (formed.rooted x) (not_spans_children formed bound apart),
    .inl run.terms_eq⟩

private theorem bindsLocally_bind (formed : s.Formed) (x : Handle) (t : Term) :
    s.BindsLocally x t (s.bind x t) := by
  rw [bind]
  split
  · exact .of_same formed.rooted rfl
  · rename_i apart
    split
    · rename_i unbound
      exact ⟨confined_assign (spans_find List.mem_cons_self) t, formed.rooted x,
        .inr ⟨unbound, rfl, rfl⟩⟩
    · rename_i u bound
      split
      · exact .of_same formed.rooted rfl
      · rename_i parts paired
        exact bindsLocally_matched formed bound apart paired

end Bind

/-- A call touches only what its arguments reach, whether it succeeds or not. Unification binds
nothing; the links that it adds are between roots that were within one of the two handles. A term is
bound or matched in the same way, from its handle and the handles inside. -/
theorem calls_confined {s : Store} (built : s.Built fun _ => True) :
    (∀ x y, s.Confined (s.Spans [x, y]) (s.unify x y).store ∧
      (s.unify x y).store.terms = s.terms) ∧
    ∀ x t, s.BindsLocally x t (s.bind x t) := by
  have formed := built.formed
  refine ⟨fun x y => ⟨confined_unify formed x y, ?_⟩, bindsLocally_bind formed⟩
  exact (run_solveAll formed.rooted [(x, y)]).terms_eq

/-- Two records are merged, and the fields of one name with them, before the fields of the other
name clash. The pointer beside them is out of reach, and so is what it points to, until it is
matched with a pointer to one of those fields. -/
theorem calls_confined_half_merged :
    let s := [(0, Term.record [("g", 1), ("f", 2)]), (3, .record [("f", 4), ("g", 5)]),
      (1, .function [] 6), (5, .function [2] 7), (8, .pointer 9)].foldl
        (fun s (x, t) => (s.bind x t).store) ({} : Store)
    s.Built (fun _ => True) ∧ (s.unify 3 0).conflict?.isSome ∧
      (s.unify 3 0).store.parents.toList = [(3, 0), (4, 2)] ∧ s.Spans [3, 0] 2 ∧ s.Spans [3, 0] 4 ∧
      ¬ s.Spans [3, 0] (s.find 8) ∧ (s.unify 3 0).store.term? 8 = some (.pointer 9) ∧
      (s.bind 8 (.pointer 4)).store.parents.toList = [(9, 4)] ∧
      s.BindsLocally 8 (.pointer 4) (s.bind 8 (.pointer 4)) := by
  intro s
  have built : s.Built fun _ => True :=
    .bind (.bind (.bind (.bind (.bind .empty 0 trivial) 3 trivial) 1 trivial) 5 trivial) 8 trivial
  have rooted := built.formed.rooted
  have outside : ¬ s.Spans [3, 0] (s.find 8) := by
    rw [spans_iff_mem_reach rooted]
    decide +kernel
  obtain ⟨unifies, binds⟩ := calls_confined built
  have kept := (unifies 3 0).1.term?_eq 8 outside
  refine ⟨built, by decide +kernel, by decide +kernel, ?_, ?_, outside, ?_, by decide +kernel,
    binds 8 (.pointer 4)⟩
  · rw [spans_iff_mem_reach rooted]
    decide +kernel
  · rw [spans_iff_mem_reach rooted]
    decide +kernel
  · rw [kept]
    decide +kernel

end Store

end TypeInference
