import Mathlib.Data.Finset.Max
import Mathlib.Data.Fintype.EquivFin
import TypeInference.Proofs.Compatible
import TypeInference.Proofs.Constraints
import TypeInference.Proofs.Solutions

/-!
# What a store leaves open

A handle has one type under all solutions exactly when no unbound class lies within it. Accesses
to records that are all unbound never pin a record down: the highest of them can be given a further
field without changing the type of any field that is accessed.
-/

set_option autoImplicit false

namespace TypeInference

private theorem Ground.exists_wider {g t : Ground} {name : String} (has : g.field? name = some t) :
    ∃ wider, wider ≠ g ∧ ∀ n u, g.field? n = some u → wider.field? n = some u := by
  cases g with
  | int => cases has
  | pointer target => cases has
  | function params result => cases has
  | record names type =>
    obtain ⟨fresh, absent⟩ := Infinite.exists_notMem_finset names
    let wider := record (insert fresh names) fun n =>
      if known : n.val ∈ names then type ⟨n.val, known⟩ else int
    have hasFresh : wider.field? fresh = some int := by simp [wider, field?, absent]
    refine ⟨wider, fun equal => ?_, fun n u found => ?_⟩
    · rw [equal] at hasFresh
      simp [field?, absent] at hasFresh
    · have member : n ∈ names := by
        by_contra missing
        simp [field?, missing] at found
      simp only [field?, dif_pos member] at found
      simp [wider, field?, member, found]

namespace Store

variable {s : Store} {σ σ' : Assignment}

/-- A handle without unbound classes resolves to a settled type. -/
theorem settled_resolve (sound : s.Sound) {x : Handle}
    (bound : ∀ k, s.Within k x → s.term? k ≠ none) : (s.resolve x).Settled := by
  induction x using sound.acyclic.inside_out sound.rooted with
  | step x ih =>
    cases found : s.term? x with
    | none =>
      refine absurd ?_ (bound (s.find x) (.self s x))
      rw [term?_find sound.rooted, found]
    | some t =>
      rw [resolve_of_bound sound.rooted sound.acyclic found]
      exact Ty.settled_toTy (sound.distinct_term? found) fun c member =>
        ih t found c member fun k inner =>
          bound k ((within_iff sound.rooted found).mpr (.inr ⟨c, member, inner⟩))

/-- A handle is read out without variables exactly when no class within it is unbound. -/
theorem isResolved_resolve_iff (formed : s.Formed) {x : Handle} :
    (s.resolve x).isResolved ↔ ∀ k, s.Within k x → s.term? k ≠ none := by
  induction x using formed.acyclic.inside_out formed.rooted with
  | step x ih =>
    cases found : s.term? x with
    | none =>
      rw [resolve_of_unbound found]
      refine iff_of_false Bool.false_ne_true fun bound => bound _ (.self s x) ?_
      rw [term?_find formed.rooted, found]
    | some t =>
      rw [resolve_of_bound formed.rooted formed.acyclic found, Ty.isResolved_toTy]
      constructor
      · intro resolved k within
        rcases (within_iff formed.rooted found).mp within with rfl | ⟨c, member, inner⟩
        · rw [term?_find formed.rooted, found]
          exact Option.some_ne_none t
        · exact (ih t found c member).mp (resolved c member) k inner
      · intro bound c member
        exact (ih t found c member).mpr fun k inner =>
          bound k ((within_iff formed.rooted found).mpr (.inr ⟨c, member, inner⟩))

/-- Solutions that agree on a handle agree on every class within it. -/
theorem Solves.eq_of_within (sound : s.Sound) (solves : s.Solves σ) (solves' : s.Solves σ')
    {k x : Handle} (within : s.Within k x) (equal : σ x = σ' x) : σ k = σ' k := by
  rw [solves.classes x, solves'.classes x] at equal
  induction within using Relation.ReflTransGen.head_induction_on with
  | refl => exact equal
  | @head _ r inside _ ih =>
    obtain ⟨isRoot, t, found, c, member, rfl⟩ := inside
    have found' : s.term? r = some t := by rw [term?, find_of_isRoot isRoot, found]
    rw [solves.terms r t found', solves'.terms r t found'] at ih
    rw [← solves.classes c, ← solves'.classes c]
    exact Term.eq_of_ground_eq (sound.distinct _ t found) ih member

private theorem ground_resolve_root {ρ : Assignment} {k : Handle} (isRoot : s.IsRoot k)
    (unbound : s.term? k = none) : (s.resolve k).ground ρ = ρ k := by
  rw [resolve_of_unbound unbound, find_of_isRoot isRoot]
  rfl

private theorem exists_ne_of_unbound (sound : s.Sound) {k x : Handle} (within : s.Within k x)
    (unbound : s.term? k = none) : ∃ σ σ', s.Solves σ ∧ s.Solves σ' ∧ σ x ≠ σ' x := by
  have isRoot := within.isRoot sound.rooted
  have solves := solves_resolve sound.toFormed fun _ => .int
  have solves' := solves_resolve sound.toFormed fun _ => .pointer .int
  refine ⟨_, _, solves, solves', fun equal => ?_⟩
  have same := solves.eq_of_within sound solves' within equal
  rw [ground_resolve_root isRoot unbound, ground_resolve_root isRoot unbound] at same
  cases same

/-- All solutions give a handle the same type. -/
def Determines (s : Store) (x : Handle) : Prop :=
  ∀ σ σ', s.Solves σ → s.Solves σ' → σ x = σ' x

/-- A handle is determined exactly when no class within it is unbound. -/
theorem determines_iff (sound : s.Sound) {x : Handle} :
    s.Determines x ↔ ∀ k, s.Within k x → s.term? k ≠ none := by
  constructor
  · intro determined k within unbound
    obtain ⟨σ, σ', solves, solves', differ⟩ := exists_ne_of_unbound sound within unbound
    exact differ (determined σ σ' solves solves')
  · intro bound σ σ' solves solves'
    exact solves.agree sound.toFormed solves' x fun k within unbound =>
      absurd unbound (bound k within)

/-- Accesses whose records are all unbound hold under a further solution, which gives one of the
records another type. -/
theorem exists_ne_of_stuck (sound : s.Sound) {waiting : List Access} (nonempty : waiting ≠ [])
    (stuck : ∀ a ∈ waiting, s.term? a.record = none) (solves : s.Solves σ)
    (hold : ∀ a ∈ waiting, a.Holds σ) :
    ∃ σ', s.Solves σ' ∧ (∀ a ∈ waiting, a.Holds σ') ∧
      ∃ a ∈ waiting, σ' a.record ≠ σ a.record := by
  obtain ⟨some₀, inWaiting⟩ := List.exists_mem_of_ne_nil waiting nonempty
  obtain ⟨highest, member, greatest⟩ := waiting.toFinset.exists_max_image
    (fun a => (σ a.record).height) ⟨some₀, List.mem_toFinset.mpr inWaiting⟩
  rw [List.mem_toFinset] at member
  obtain ⟨wider, differs, keeps⟩ := Ground.exists_wider (hold highest member)
  let root := s.find highest.record
  let ρ := Function.update σ root wider
  have at_root : ρ root = wider := Function.update_self root wider σ
  have elsewhere : ∀ h, h ≠ root → ρ h = σ h := fun h other => Function.update_of_ne other wider σ
  have solves' := solves_resolve sound.toFormed ρ
  -- the widened root is too high to lie within the type of a field
  have untouched : ∀ a ∈ waiting, ¬ s.Within root a.node := by
    intro a inWaiting within
    have inside := solves.height_le sound within
    have field := Ground.height_lt_of_field? (hold a inWaiting)
    have bounded := greatest a (List.mem_toFinset.mpr inWaiting)
    rw [← solves.classes highest.record] at inside
    exact absurd (inside.trans_lt field) (Nat.not_lt.mpr bounded)
  have node_eq : ∀ a ∈ waiting, (s.resolve a.node).ground ρ = σ a.node := by
    intro a inWaiting
    refine solves'.agree sound.toFormed solves a.node fun k within unbound => ?_
    rw [ground_resolve_root (within.isRoot sound.rooted) unbound]
    exact elsewhere k fun equal => untouched a inWaiting (equal ▸ within)
  have record_eq : ∀ a ∈ waiting, (s.resolve a.record).ground ρ = ρ (s.find a.record) := by
    intro a inWaiting
    rw [resolve_of_unbound (stuck a inWaiting)]
    rfl
  refine ⟨_, solves', fun a inWaiting => ?_, highest, member, ?_⟩
  · rw [Access.Holds, node_eq a inWaiting, record_eq a inWaiting]
    by_cases widened : s.find a.record = root
    · rw [widened, at_root]
      apply keeps
      rw [solves.eq_of_sameRoot widened.symm]
      exact hold a inWaiting
    · rw [elsewhere _ widened, ← solves.classes]
      exact hold a inWaiting
  · rw [record_eq highest member, at_root]
    exact differs

end Store

end TypeInference
