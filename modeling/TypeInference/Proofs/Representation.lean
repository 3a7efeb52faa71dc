import Mathlib.Logic.Relation
import TypeInference.Proofs.Unify

/-!
# What every store looks like

Whatever calls led to a store, refused ones included, its parents lead to roots, no class lies
inside itself, so that reading one out ends, and an unbound class is rooted at its lowest handle.
Reading out is bounded where it runs; here it is compared with a relation that has no bound.
-/

set_option autoImplicit false

namespace TypeInference

namespace Store

variable {s : Store}

/-- Following parents, none or some, leads from `x` to `r`. -/
def Ascends (s : Store) : Handle → Handle → Prop :=
  Relation.ReflTransGen fun x parent => s.parents[x]? = some parent

theorem ascends_climb (s : Store) (steps : Nat) (x : Handle) : s.Ascends x (s.climb steps x) := by
  induction steps generalizing x with
  | zero => exact .refl
  | succ steps ih =>
    rw [climb]
    cases above : s.parents[x]? with
    | none => exact .refl
    | some parent => exact .head above (ih parent)

private theorem Ascends.eq_of_isRoot {x r : Handle} (path : s.Ascends x r) (root : s.IsRoot x) :
    x = r := by
  rcases Relation.ReflTransGen.cases_head path with equal | ⟨parent, above, -⟩
  · exact equal
  · rw [show s.parents[x]? = none from root] at above
    cases above

private theorem Ascends.unique {x r r' : Handle} (path : s.Ascends x r) (root : s.IsRoot r)
    (path' : s.Ascends x r') (root' : s.IsRoot r') : r = r' := by
  have oneParent : Relator.RightUnique fun x parent : Handle => s.parents[x]? = some parent :=
    fun _ _ _ above above' => Option.some.inj (above.symm.trans above')
  rcases Relation.ReflTransGen.total_of_right_unique oneParent path path' with further | further
  · exact Ascends.eq_of_isRoot further root
  · exact (Ascends.eq_of_isRoot further root').symm

theorem ascends_iff_find (rooted : s.Rooted) {x r : Handle} :
    s.Ascends x r ∧ s.IsRoot r ↔ s.find x = r := by
  constructor
  · rintro ⟨path, root⟩
    exact (ascends_climb s _ x).unique (rooted x) path root
  · rintro rfl
    exact ⟨ascends_climb s _ x, rooted x⟩

/-- Reading the class of a handle out, to whatever depth it takes, ends with a type. -/
inductive Resolves (s : Store) : Handle → Ty → Prop
  | unbound {x : Handle} (unknown : s.term? x = none) : Resolves s x (.var (s.find x))
  | bound {x : Handle} {t : Term} {type : Handle → Ty} (found : s.term? x = some t)
      (inside : ∀ c ∈ t.children, Resolves s c (type c)) : Resolves s x (t.toTy type)

/-- Reading a term out ends with a type. -/
def Expands (s : Store) (t : Term) (a : Ty) : Prop :=
  ∃ type : Handle → Ty, (∀ c ∈ t.children, s.Resolves c (type c)) ∧ t.toTy type = a

private theorem resolves_resolve (formed : s.Formed) (x : Handle) : s.Resolves x (s.resolve x) := by
  induction x using formed.acyclic.inside_out formed.rooted with
  | step x ih =>
    cases found : s.term? x with
    | none =>
      rw [resolve_of_unbound found]
      exact .unbound found
    | some t =>
      rw [resolve_of_bound formed.rooted formed.acyclic found]
      exact .bound found (ih t found)

private theorem Resolves.unique {x : Handle} {a b : Ty} (resolves : s.Resolves x a)
    (resolves' : s.Resolves x b) : a = b := by
  induction resolves generalizing b with
  | unbound unknown =>
    cases resolves' with
    | unbound _ => rfl
    | bound found _ =>
      rw [unknown] at found
      cases found
  | bound found _ ih =>
    cases resolves' with
    | unbound unknown =>
      rw [found] at unknown
      cases unknown
    | bound found' inside' =>
      obtain rfl := Option.some.inj (found.symm.trans found')
      exact Term.toTy_congr fun c member => ih c member (inside' c member)

private theorem resolves_iff (formed : s.Formed) {x : Handle} {a : Ty} :
    s.Resolves x a ↔ s.resolve x = a := by
  constructor
  · exact (resolves_resolve formed x).unique
  · rintro rfl
    exact resolves_resolve formed x

private theorem expands_iff (formed : s.Formed) {t : Term} {a : Ty} :
    s.Expands t a ↔ s.expand t = a := by
  constructor
  · rintro ⟨type, inside, rfl⟩
    exact Term.toTy_congr fun c member => (resolves_iff formed).mp (inside c member)
  · rintro rfl
    exact ⟨s.resolve, fun c _ => resolves_resolve formed c, rfl⟩

/-- The root of an unbound class is its lowest handle. -/
def Lowest (s : Store) : Prop := ∀ x, s.term? x = none → s.find x ≤ x

private theorem lowest_empty : Lowest {} := fun x _ => by
  rw [find_of_isRoot (s := {}) Std.TreeMap.getElem?_emptyc]

private theorem lowest_link (rooted : s.Rooted) (lowest : s.Lowest) {child root : Handle}
    (below : s.IsRoot child) (above : s.IsRoot root) (ne : child ≠ root)
    (lower : s.terms[root]? = none → s.terms[child]? = none ∧ root < child) :
    (s.link child root).Lowest := by
  intro x unbound
  rw [term?, find_link rooted below above ne, terms_link] at unbound
  rw [find_link rooted below above ne]
  split at unbound
  · rename_i inChild
    obtain ⟨unboundChild, less⟩ := lower unbound
    have least := lowest x (by rw [term?, inChild, unboundChild])
    rw [if_pos inChild]
    rw [inChild] at least
    exact less.le.trans least
  · rename_i outside
    rw [if_neg outside]
    exact lowest x unbound

private theorem lowest_assign (lowest : s.Lowest) (r : Handle) (t : Term) :
    (s.assign r t).Lowest := by
  intro x unbound
  rw [term?, find_assign, terms_assign_getElem?] at unbound
  rw [find_assign]
  split at unbound
  · cases unbound
  · exact lowest x unbound

private theorem lt_of_meet_join {x y child root : Handle} (met : s.meet x y = .join child root)
    (unbound : s.terms[root]? = none) : root < child := by
  rw [meet] at met
  split at met
  · cases met
  · rename_i differ
    split at met
    · cases met
      exact min_lt_max.mpr differ
    · rename_i t left right
      split at met
      · cases met
      · cases met
        rw [left] at unbound
        cases unbound
    · rename_i u left right
      split at met
      · cases met
      · cases met
        rw [right] at unbound
        cases unbound
    · split at met
      · cases met
      · split at met
        · cases met
        · split at met <;> cases met

/-- The links that deciding equations makes. -/
def Links (s : Store) (child root : Handle) : Prop :=
  ∃ x y, s.meet x y = .join child root ∨ ∃ parts, s.meet x y = .merge child root parts

private theorem solveWith_keeps {I : Store → Prop}
    (step : ∀ s child root, I s → s.Links child root → I (s.link child root))
    {merged : Store → List Equation → Report}
    (each : ∀ s equations, I s → I (merged s equations).store) (equations : List Equation) :
    ∀ s : Store, I s → I (s.solveWith merged equations).store := by
  induction equations with
  | nil => exact fun s start => start
  | cons equation rest ih =>
    intro s start
    obtain ⟨x, y⟩ := equation
    rw [solveWith]
    split
    · exact ih s start
    · rename_i child root met
      exact ih _ (step s child root start ⟨x, y, .inl met⟩)
    · rename_i child root parts met
      exact each _ _ (step s child root start ⟨x, y, .inr ⟨parts, met⟩⟩)
    · exact start

private theorem solveAll_keeps {I : Store → Prop}
    (step : ∀ s child root, I s → s.Links child root → I (s.link child root)) (start : I s)
    (equations : List Equation) : I (s.solveAll equations).store := by
  have bounded : ∀ n (s : Store) equations, I s → I (solve n s equations).store := by
    intro n
    induction n with
    | zero => exact fun s equations => solveWith_keeps step (fun _ _ start => start) equations s
    | succ n ih => exact fun s equations => solveWith_keeps step ih equations s
  exact bounded _ s equations start

private theorem Links.rooted_lowest {child root : Handle} (links : s.Links child root)
    (rooted : s.Rooted) (lowest : s.Lowest) :
    (s.link child root).Rooted ∧ (s.link child root).Lowest := by
  obtain ⟨x, y, met | ⟨parts, met⟩⟩ := links
  · have decided := meets_meet rooted x y
    rw [met] at decided
    refine ⟨decided.rooted_join rooted, ?_⟩
    cases decided with
    | join sides unbound apart =>
      exact lowest_link rooted lowest sides.below sides.above sides.ne fun unboundRoot =>
        ⟨unbound, lt_of_meet_join met unboundRoot⟩
  · have decided := meets_meet rooted x y
    rw [met] at decided
    refine ⟨decided.rooted_merge rooted, ?_⟩
    cases decided with
    | merge sides left right paired apart =>
      refine lowest_link rooted lowest sides.below sides.above sides.ne fun unboundRoot => ?_
      rcases sides.order with ⟨-, rfl⟩ | ⟨-, rfl⟩
      · rw [right] at unboundRoot
        cases unboundRoot
      · rw [left] at unboundRoot
        cases unboundRoot

theorem lowest_solveAll (rooted : s.Rooted) (lowest : s.Lowest) (equations : List Equation) :
    (s.solveAll equations).store.Lowest :=
  (solveAll_keeps (I := fun s => s.Rooted ∧ s.Lowest)
    (fun _ _ _ kept links => links.rooted_lowest kept.1 kept.2) ⟨rooted, lowest⟩ equations).2

private theorem lowest_bind (rooted : s.Rooted) (lowest : s.Lowest) (x : Handle) (t : Term) :
    (s.bind x t).store.Lowest := by
  rw [bind]
  split
  · exact lowest
  · split
    · exact lowest_assign lowest _ t
    · split
      · exact lowest
      · exact lowest_solveAll rooted lowest _

theorem Built.lowest {allowed : Term → Prop} (built : s.Built allowed) : s.Lowest := by
  induction built with
  | empty => exact lowest_empty
  | unify built x y ih => exact lowest_solveAll built.formed.rooted ih [(x, y)]
  | bind built x ok ih => exact lowest_bind built.formed.rooted ih x _

/-- The shape that a store keeps, whatever is asked of it. -/
structure Consistent (s : Store) : Prop where
  /-- Following parents from a handle ends at one root, which is the one that is found. -/
  ends : ∀ x r, s.Ascends x r ∧ s.IsRoot r ↔ s.find x = r
  /-- No class lies inside itself, at whatever depth. -/
  acyclic : ∀ r, ¬ Relation.TransGen s.Inside r r
  /-- Every handle can be read out, as one type. -/
  resolves : ∀ x a, s.Resolves x a ↔ s.resolve x = a
  /-- Every term can be read out, as one type. -/
  expands : ∀ t a, s.Expands t a ↔ s.expand t = a
  /-- The root of an unbound class is its lowest handle. -/
  lowest : ∀ x y, s.term? x = none → s.sameClass x y → s.find x ≤ y

/-- Any calls with any handles and terms, refused ones included, leave a consistent store. -/
theorem consistent_of_built {s : Store} (built : s.Built fun _ => True) : s.Consistent where
  ends _ _ := ascends_iff_find built.formed.rooted
  acyclic r loop := built.formed.acyclic.transGen.asymmetric r r loop loop
  resolves _ _ := resolves_iff built.formed
  expands _ _ := expands_iff built.formed
  lowest x y unbound same := by
    have equal : s.find x = s.find y := by simpa [sameClass] using same
    rw [term?, equal] at unbound
    rw [equal]
    exact built.lowest y unbound

/-- Two functions whose first parameters were merged before the second ones clashed, with a record
that names a field twice beside them. -/
theorem consistent_of_built_half_merged :
    let s := [(0, Term.function [1, 2] 3), (4, .function [5, 6] 7), (2, .int), (6, .pointer 8),
      (9, .record [("f", 1), ("f", 5)])].foldl (fun s (x, t) => (s.bind x t).store) ({} : Store)
    (s.unify 4 0).conflict?.isSome ∧ (s.unify 4 0).store.sameClass 1 5 ∧
      (s.unify 4 0).store.Built (fun _ => True) ∧ (s.unify 4 0).store.Consistent := by
  intro s
  have built : (s.unify 4 0).store.Built fun _ => True :=
    .unify (.bind (.bind (.bind (.bind (.bind .empty 0 trivial) 4 trivial) 2 trivial) 6 trivial) 9
      trivial) 4 0
  exact ⟨by decide +kernel, by decide +kernel, built, consistent_of_built built⟩

end Store

end TypeInference
