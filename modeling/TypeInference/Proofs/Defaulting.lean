import TypeInference.Checker.Finish
import TypeInference.Proofs.Checking
import TypeInference.Proofs.Freedom

/-!
# Taking unknown types to be integers

An unbound class can always become an integer, as no class lies inside one. So the defaults of a
typed node never fail, they leave the node determined, and the solutions that took unknown types to
be integers are kept.
-/

set_option autoImplicit false

namespace TypeInference

namespace Store

variable {s s' s'' : Store} {σ : Assignment} {x : Handle}

/-- The second store is the first with some unbound classes bound to integers. -/
structure Defaults (s s' : Store) : Prop where
  find : ∀ x, s'.find x = s.find x
  bound : ∀ x t, s.term? x = some t → s'.term? x = some t
  unbound : ∀ x, s.term? x = none → s'.term? x = none ∨ s'.term? x = some .int

namespace Defaults

private theorem refl (s : Store) : s.Defaults s := ⟨fun _ => rfl, fun _ _ => id, fun _ => .inl⟩

private theorem trans (first : s.Defaults s') (second : s'.Defaults s'') : s.Defaults s'' where
  find x := (second.find x).trans (first.find x)
  bound x t found := second.bound x t (first.bound x t found)
  unbound x found := by
    rcases first.unbound x found with still | int
    · exact second.unbound x still
    · exact .inr (second.bound x .int int)

theorem solves (defaults : s.Defaults s') (solves : s'.Solves σ) : s.Solves σ where
  classes x := by rw [← defaults.find, ← solves.classes]
  terms x t found := solves.terms x t (defaults.bound x t found)

/-- The solutions that take all unknown types to be integers are kept. -/
theorem solves_of_integers (defaults : s.Defaults s') (solves : s.Solves σ)
    (integers : ∀ x, s.term? x = none → σ x = .int) : s'.Solves σ where
  classes x := by rw [defaults.find, ← solves.classes]
  terms x t found := by
    cases before : s.term? x with
    | some u =>
      rw [defaults.bound x u before] at found
      cases found
      exact solves.terms x _ before
    | none =>
      rcases defaults.unbound x before with still | int
      · rw [still] at found
        cases found
      · rw [int] at found
        cases found
        exact integers x before

private theorem determines (defaults : s.Defaults s') (determines : s.Determines x) :
    s'.Determines x :=
  fun σ σ' solves solves' => determines σ σ' (defaults.solves solves) (defaults.solves solves')

end Defaults

/-- The class of a handle is an integer or can become one. -/
def TakesInt (s : Store) (x : Handle) : Prop := s.term? x = none ∨ s.term? x = some .int

private theorem Defaults.takesInt (defaults : s.Defaults s') (takes : s.TakesInt x) :
    s'.TakesInt x := by
  rcases takes with unbound | int
  · exact defaults.unbound x unbound
  · exact .inr (defaults.bound x .int int)

private theorem defaults_assign (unbound : s.term? x = none) :
    s.Defaults (s.assign (s.find x) .int) := by
  have term_eq : ∀ y, (s.assign (s.find x) .int).term? y =
      if s.find y = s.find x then some .int else s.term? y := by
    intro y
    rw [term?, find_assign, terms_assign_getElem?]
    rfl
  refine ⟨fun y => find_assign s _ _ y, fun y t found => ?_, fun y found => ?_⟩
  · have differ : s.find y ≠ s.find x := by
      intro same
      rw [term?, same, ← term?, unbound] at found
      cases found
    rw [term_eq, if_neg differ, found]
  · rw [term_eq, found]
    split
    · exact .inr rfl
    · exact .inl rfl

private theorem bind_int (takes : s.TakesInt x) :
    (s.bind x .int).conflict? = none ∧ s.Defaults (s.bind x .int).store ∧
      (s.bind x .int).store.term? x = some .int := by
  have apart : s.occurs (s.find x) .int = false := rfl
  rcases takes with unbound | int
  · have found : s.terms[s.find x]? = none := unbound
    have outcome : s.bind x .int =
        { store := s.assign (s.find x) .int, events := [.bound (s.find x) Term.int.shape] } := by
      simp [bind, apart, found]
    rw [outcome]
    refine ⟨rfl, defaults_assign unbound, ?_⟩
    rw [term?, find_assign, terms_assign_getElem?, if_pos rfl]
  · have found : s.terms[s.find x]? = some .int := int
    have outcome : s.bind x .int = s.solveAll [] := by
      simp [bind, apart, found, Term.pairUp]
    have idle : s.solveAll [] = { store := s } := by
      rw [solveAll]
      cases s.terms.size <;> rfl
    rw [outcome, idle]
    exact ⟨rfl, .refl s, int⟩

end Store

namespace Checker

variable {c c' c'' : Checker} {h k : Handle}

/-- Classes were bound to integers, and nothing else that an answer is made of was changed. -/
structure Defaults (c c' : Checker) : Prop where
  valid : c'.Valid
  store : c.store.Defaults c'.store
  nodes : c'.nodes = c.nodes

theorem Defaults.refl (valid : c.Valid) : c.Defaults c := ⟨valid, .refl c.store, rfl⟩

private theorem Defaults.trans (first : c.Defaults c') (second : c'.Defaults c'') :
    c.Defaults c'' :=
  ⟨second.valid, first.store.trans second.store, second.nodes.trans first.nodes⟩

private theorem Valid.lt_size_of_within (valid : c.Valid) (below : h < c.nodes.size)
    (within : c.store.Within k h) : k < c.nodes.size := by
  by_contra outside
  obtain ⟨σ, solves⟩ : ∃ σ, c.store.Solves σ :=
    ⟨_, Store.solves_resolve valid.store.toFormed fun _ => .int⟩
  -- a type that only handles outside read could be changed freely
  have changed : ∀ type, σ k = type := by
    intro type
    have agree : ∀ x < c.nodes.size, σ x = Function.update σ k type x := fun x inTable =>
      (Function.update_of_ne (fun equal : x = k => outside (equal ▸ inTable)) type σ).symm
    have solves' := valid.reads agree solves
    have same := solves.eq_of_within valid.store solves' within (agree h below)
    rwa [Function.update_self] at same
  cases (changed .int).symm.trans (changed (.pointer .int))

private theorem exists_defaults_root (valid : c.Valid) (span : Span) {root : Handle}
    (below : root < c.nodes.size) (takes : c.store.TakesInt root) :
    ∃ c', (do emit (.defaulted root); bindAt span root .int : CheckM Unit) c = .ok () c' ∧
      c.Defaults c' ∧ c'.store.term? root = some .int := by
  obtain ⟨accepted, defaults, int⟩ := Store.bind_int takes
  let noted : Checker := { c with log := c.log.push (.defaulted root) }
  have ran : emit (.defaulted root) c = .ok () noted := rfl
  have ran' := absorb_of_accepted (c := noted) span (·.bind root .int) accepted
  have same : c.Adds (fun _ => True) noted := valid.adds_of_same rfl rfl rfl
  have plain : Term.int.DistinctNames := trivial
  have adding : noted.Adding (fun σ => σ root = .int) (bindAt span root .int) fun _ _ => True :=
    (adding_bindAt same.valid plain (fun _ _ => Iff.rfl) fun σ σ' agree equal =>
      (agree root below).symm.trans equal).post fun _ _ _ _ => trivial
  exact ⟨_, (bind_apply_ok ran).trans ran', ⟨(adding.of_ok ran').1.valid, defaults, rfl⟩, int⟩

private theorem exists_defaults_roots (valid : c.Valid) (span : Span) {roots : List Handle}
    (take : ∀ root ∈ roots, root < c.nodes.size ∧ c.store.TakesInt root) :
    ∃ c', (roots.forM fun root => do emit (.defaulted root); bindAt span root .int : CheckM Unit) c
        = .ok () c' ∧
      c.Defaults c' ∧ ∀ root ∈ roots, c'.store.term? root = some .int := by
  induction roots generalizing c with
  | nil => exact ⟨c, rfl, .refl valid, fun _ member => by cases member⟩
  | cons root rest ih =>
    obtain ⟨⟨below, takes⟩, others⟩ := List.forall_mem_cons.mp take
    obtain ⟨c₁, ran, defaults, int⟩ := exists_defaults_root valid span below takes
    obtain ⟨c', ran', defaults', ints⟩ := ih defaults.valid fun r member =>
      ⟨defaults.nodes ▸ (others r member).1, defaults.store.takesInt (others r member).2⟩
    refine ⟨c', ?_, defaults.trans defaults', List.forall_mem_cons.mpr ⟨?_, ints⟩⟩
    · rw [List.forM, bind_apply_ok ran]
      exact ran'
    · exact defaults'.store.bound root .int int

private theorem exists_defaults_node (valid : c.Valid) (below : h < c.nodes.size) :
    ∃ c', defaultNode h c = .ok () c' ∧ c.Defaults c' ∧ c'.store.Determines h := by
  have mem_roots : ∀ {k}, k ∈ c.store.unresolvedRoots h ↔
      c.store.Within k h ∧ c.store.term? k = none := Store.mem_unresolvedRoots valid.store.rooted
  obtain ⟨c', ran, defaults, ints⟩ := exists_defaults_roots valid (c.nodes.get h).span
    fun root member =>
      ⟨valid.lt_size_of_within below (mem_roots.mp member).1, .inl (mem_roots.mp member).2⟩
  refine ⟨c', ran, defaults, fun σ σ' solves solves' => ?_⟩
  refine (defaults.store.solves solves).agree valid.store.toFormed (defaults.store.solves solves') h
    fun root within unbound => ?_
  have int := ints root (mem_roots.mpr ⟨within, unbound⟩)
  rw [solves.terms root .int int, solves'.terms root .int int]
  rfl

/-- The defaults of nodes never fail, and leave all of them determined. -/
theorem exists_defaults_nodes (valid : c.Valid) {typed : List Handle}
    (below : ∀ h ∈ typed, h < c.nodes.size) :
    ∃ c', typed.forM defaultNode c = .ok () c' ∧ c.Defaults c' ∧
      ∀ h ∈ typed, c'.store.Determines h := by
  induction typed generalizing c with
  | nil => exact ⟨c, rfl, .refl valid, fun _ member => by cases member⟩
  | cons h rest ih =>
    obtain ⟨first, others⟩ := List.forall_mem_cons.mp below
    obtain ⟨c₁, ran, defaults, own⟩ := exists_defaults_node valid first
    obtain ⟨c', ran', defaults', determined⟩ := ih defaults.valid (defaults.nodes ▸ others)
    refine ⟨c', ?_, defaults.trans defaults', List.forall_mem_cons.mpr
      ⟨defaults'.store.determines own, determined⟩⟩
    rw [List.forM, bind_apply_ok ran]
    exact ran'

end Checker

end TypeInference
