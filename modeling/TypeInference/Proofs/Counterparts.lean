import TypeInference.Proofs.Solutions

/-!
# Stores with corresponding solutions

Two stores that permit the same types, be it of some handles only, bind the same classes. Handles
that correspond in them are read out alike, which is proved by induction over both stores at once.
-/

set_option autoImplicit false

namespace TypeInference

/-- The word for the outermost constructor of a ground type. -/
def Ground.shape : Ground → String
  | int => "int"
  | pointer _ => "pointer"
  | function .. => "function"
  | record .. => "record"

private theorem Term.shape_ground (σ : Assignment) (t : Term) : (t.ground σ).shape = t.shape := by
  cases t <;> rfl

/-- All assignments with the property give a handle the same outermost constructor. -/
def Shaped (P : Assignment → Prop) (x : Handle) : Prop :=
  ∀ σ σ', P σ → P σ' → (σ x).shape = (σ' x).shape

namespace Store

variable {s s' : Store} {σ σ' : Assignment} {S : Handle → Prop} {x y : Handle}

/-- A class is bound exactly when all solutions agree on the outermost constructor. -/
theorem shaped_iff (formed : s.Formed) : Shaped s.Solves x ↔ s.term? x ≠ none := by
  constructor
  · intro shaped unbound
    have equal := shaped _ _ (solves_resolve formed fun _ => .int)
      (solves_resolve formed fun _ => .pointer .int)
    rw [resolve_of_unbound unbound] at equal
    simp [Ty.ground, Ground.shape] at equal
  · intro bound σ σ' solves solves'
    obtain ⟨t, found⟩ := Option.ne_none_iff_exists'.mp bound
    rw [solves.terms x t found, solves'.terms x t found, Term.shape_ground, Term.shape_ground]

/-- Every solution of either store has a counterpart among those of the other, with the same types
in `S`. -/
structure Linked (S : Handle → Prop) (s s' : Store) : Prop where
  forth : ∀ σ, s.Solves σ → ∃ σ', s'.Solves σ' ∧ ∀ h, S h → σ h = σ' h
  back : ∀ σ', s'.Solves σ' → ∃ σ, s.Solves σ ∧ ∀ h, S h → σ h = σ' h

/-- Counterparts give `x` in the one store the type of `y` in the other. -/
def Matched (S : Handle → Prop) (s s' : Store) (x y : Handle) : Prop :=
  ∀ σ σ', s.Solves σ → s'.Solves σ' → (∀ h, S h → σ h = σ' h) → σ x = σ' y

theorem matched_self (inside : S x) : Matched S s s' x x := fun _ _ _ _ agree => agree x inside

namespace Linked

private theorem shaped_iff_of_matched (linked : Linked S s s') (matched : Matched S s s' x y) :
    Shaped s.Solves x ↔ Shaped s'.Solves y := by
  constructor
  · intro shaped σ₁ σ₂ solves₁ solves₂
    obtain ⟨τ₁, image₁, agree₁⟩ := linked.back σ₁ solves₁
    obtain ⟨τ₂, image₂, agree₂⟩ := linked.back σ₂ solves₂
    rw [← matched τ₁ σ₁ image₁ solves₁ agree₁, ← matched τ₂ σ₂ image₂ solves₂ agree₂]
    exact shaped τ₁ τ₂ image₁ image₂
  · intro shaped σ₁ σ₂ solves₁ solves₂
    obtain ⟨τ₁, image₁, agree₁⟩ := linked.forth σ₁ solves₁
    obtain ⟨τ₂, image₂, agree₂⟩ := linked.forth σ₂ solves₂
    rw [matched σ₁ τ₁ solves₁ image₁ agree₁, matched σ₂ τ₂ solves₂ image₂ agree₂]
    exact shaped τ₁ τ₂ image₁ image₂

theorem unbound_iff (linked : Linked S s s') (formed : s.Formed) (formed' : s'.Formed)
    (matched : Matched S s s' x y) : s.term? x = none ↔ s'.term? y = none := by
  have shaped := linked.shaped_iff_of_matched matched
  rw [shaped_iff formed, shaped_iff formed'] at shaped
  exact not_iff_not.mp shaped

private theorem pairUp_of_matched (linked : Linked S s s') (sound : s.Sound) (sound' : s'.Sound)
    (matched : Matched S s s' x y) {t u : Term} (found : s.term? x = some t)
    (found' : s'.term? y = some u) :
    ∃ parts, t.pairUp u = .ok parts ∧ ∀ e ∈ parts, Matched S s s' e.1 e.2 := by
  have equal : ∀ σ σ', s.Solves σ → s'.Solves σ' → (∀ h, S h → σ h = σ' h) →
      t.ground σ = u.ground σ' := by
    intro σ σ' solves solves' agree
    rw [← solves.terms x t found, ← solves'.terms y u found']
    exact matched σ σ' solves solves' agree
  cases paired : t.pairUp u with
  | error reason =>
    have solves := solves_resolve sound.toFormed fun _ => .int
    obtain ⟨σ', solves', agree⟩ := linked.forth _ solves
    exact absurd (equal _ σ' solves solves' agree)
      (Term.ground_ne_of_pairUp paired (sound.distinct_term? found) (sound'.distinct_term? found')
        _ σ')
  | ok parts =>
    refine ⟨parts, rfl, fun e member σ σ' solves solves' agree => ?_⟩
    exact (Term.ground_eq_iff_of_pairUp paired (sound.distinct_term? found) σ σ').mp
      (equal σ σ' solves solves' agree) e member

/-- Induction from the inside out over two stores at once: matched handles are both unbound, or
bound to terms that pair up. -/
theorem induction (linked : Linked S s s') (sound : s.Sound) (sound' : s'.Sound)
    {P : Handle → Handle → Prop}
    (unbound : ∀ x y, Matched S s s' x y → s.term? x = none → s'.term? y = none → P x y)
    (bound : ∀ x y t u parts, s.term? x = some t → s'.term? y = some u → t.pairUp u = .ok parts →
      (∀ e ∈ parts, P e.1 e.2) → P x y)
    (x y : Handle) (matched : Matched S s s' x y) : P x y := by
  induction x using sound.acyclic.inside_out sound.rooted generalizing y with
  | step x ih =>
    cases found : s.term? x with
    | none =>
      have found' := (linked.unbound_iff sound.toFormed sound'.toFormed matched).mp found
      exact unbound x y matched found found'
    | some t =>
      have bound' : s'.term? y ≠ none := by
        rw [Ne, ← linked.unbound_iff sound.toFormed sound'.toFormed matched, found]
        exact Option.some_ne_none t
      obtain ⟨u, found'⟩ := Option.ne_none_iff_exists'.mp bound'
      obtain ⟨parts, paired, inside⟩ := linked.pairUp_of_matched sound sound' matched found found'
      refine bound x y t u parts found found' paired fun e member => ?_
      exact ih t found e.1 (Term.mem_children_of_pairUp paired member).1 e.2 (inside e member)

/-- Taking unknown types to be integers gives matched handles one type. -/
theorem ground_resolve (linked : Linked S s s') (sound : s.Sound) (sound' : s'.Sound)
    (matched : Matched S s s' x y) :
    (s.resolve x).ground (fun _ => .int) = (s'.resolve y).ground fun _ => .int := by
  refine linked.induction sound sound' (P := fun x y =>
    (s.resolve x).ground (fun _ => .int) = (s'.resolve y).ground fun _ => .int) ?_ ?_ x y matched
  · intro x y _ unbound unbound'
    rw [resolve_of_unbound unbound, resolve_of_unbound unbound', Ty.ground, Ty.ground]
  · intro x y t u parts found found' paired agree
    have solves := solves_resolve sound.toFormed fun _ => .int
    have solves' := solves_resolve sound'.toFormed fun _ => .int
    rw [solves.terms x t found, solves'.terms y u found']
    exact (Term.ground_eq_iff_of_pairUp paired (sound.distinct_term? found) _ _).mpr agree

end Linked

end Store

end TypeInference
