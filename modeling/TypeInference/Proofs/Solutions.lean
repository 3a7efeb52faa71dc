import TypeInference.Proofs.Ground
import TypeInference.Proofs.Unify

/-!
# Solutions of a store

A solution gives every handle the ground type that the store reads out for it. Merging two classes
keeps exactly the solutions under which they are equal, and a clash says that there is none: the
store computes most general unifiers.
-/

set_option autoImplicit false

namespace TypeInference

/-- Both sides of every equation have one type. -/
def Satisfies (σ : Assignment) (equations : List Equation) : Prop :=
  ∀ e ∈ equations, σ e.1 = σ e.2

private theorem satisfies_nil (σ : Assignment) : Satisfies σ [] := fun _ member => by cases member

private theorem satisfies_cons {σ : Assignment} {x y : Handle} {rest : List Equation} :
    Satisfies σ ((x, y) :: rest) ↔ σ x = σ y ∧ Satisfies σ rest := List.forall_mem_cons

private theorem satisfies_append {σ : Assignment} {equations rest : List Equation} :
    Satisfies σ (equations ++ rest) ↔ Satisfies σ equations ∧ Satisfies σ rest :=
  List.forall_mem_append

namespace Store

variable {s : Store} {σ : Assignment}

/-- Every handle has the type that is read out for it, each variable there standing for the type of
its root. -/
def Solution (s : Store) (σ : Assignment) : Prop := ∀ h, σ h = (s.resolve h).ground σ

/-- An assignment respects classes and terms. -/
structure Solves (s : Store) (σ : Assignment) : Prop where
  classes : ∀ x, σ x = σ (s.find x)
  terms : ∀ x t, s.term? x = some t → σ x = t.ground σ

/-- A store in good order whose records name no field twice. -/
structure Sound (s : Store) : Prop extends s.Formed where
  distinct : ∀ (r : Handle) (t : Term), s.terms[r]? = some t → t.DistinctNames

theorem sound_empty : Sound {} where
  toFormed := formed_empty
  distinct r t bound := by
    rw [show (Store.terms {})[r]? = none from Std.TreeMap.getElem?_emptyc] at bound
    cases bound

theorem Sound.distinct_term? (sound : s.Sound) {x : Handle} {t : Term}
    (bound : s.term? x = some t) : t.DistinctNames := sound.distinct _ t bound

theorem term?_find (rooted : s.Rooted) (x : Handle) : s.term? (s.find x) = s.term? x := by
  rw [term?, term?, rooted.find_find]

theorem Solves.eq_of_sameRoot (solves : s.Solves σ) {x y : Handle} (same : s.find x = s.find y) :
    σ x = σ y := by
  rw [solves.classes x, same, ← solves.classes y]

/-- Any types for the unbound roots extend to a solution. -/
theorem solves_resolve (formed : s.Formed) (ρ : Assignment) :
    s.Solves fun h => (s.resolve h).ground ρ where
  classes x := by
    cases bound : s.term? x with
    | none =>
      have bound' : s.term? (s.find x) = none := by rw [term?_find formed.rooted, bound]
      simp only [resolve_of_unbound bound, resolve_of_unbound bound', formed.rooted.find_find]
    | some t =>
      have bound' : s.term? (s.find x) = some t := by rw [term?_find formed.rooted, bound]
      simp only [resolve_of_bound formed.rooted formed.acyclic bound,
        resolve_of_bound formed.rooted formed.acyclic bound']
  terms x t bound := by
    simp only [resolve_of_bound formed.rooted formed.acyclic bound, Term.ground_toTy]

/-- Two solutions that agree on the unbound classes within a handle agree on the handle. -/
theorem Solves.agree (formed : s.Formed) {σ' : Assignment} (solves : s.Solves σ)
    (solves' : s.Solves σ') (x : Handle)
    (agree : ∀ k, s.Within k x → s.term? k = none → σ k = σ' k) : σ x = σ' x := by
  induction x using formed.acyclic.inside_out formed.rooted with
  | step x ih =>
    cases bound : s.term? x with
    | none =>
      rw [solves.classes, solves'.classes]
      apply agree _ (.self s x)
      rw [term?_find formed.rooted, bound]
    | some t =>
      rw [solves.terms x t bound, solves'.terms x t bound]
      apply Term.ground_congr
      intro c member
      exact ih t bound c member fun k inner =>
        agree k ((within_iff formed.rooted bound).mpr (.inr ⟨c, member, inner⟩))

theorem solution_iff_solves (formed : s.Formed) : s.Solution σ ↔ s.Solves σ := by
  have readOut := solves_resolve formed σ
  constructor
  · intro solution
    have same : (fun h => (s.resolve h).ground σ) = σ := funext fun h => (solution h).symm
    rwa [same] at readOut
  · intro solves h
    refine solves.agree formed readOut h fun k within unbound => ?_
    rw [resolve_of_unbound unbound, find_of_isRoot (within.isRoot formed.rooted)]
    rfl

private theorem Solves.height_lt (sound : s.Sound) (solves : s.Solves σ) {r x : Handle}
    (inside : s.Inside r x) : (σ r).height < (σ x).height := by
  obtain ⟨isRoot, t, bound, c, member, rfl⟩ := inside
  have bound' : s.term? x = some t := by rw [term?, find_of_isRoot isRoot, bound]
  rw [← solves.classes c, solves.terms x t bound']
  exact Term.height_lt_height_ground σ (sound.distinct x t bound) member

/-- A class within another has a type within the other's type. -/
theorem Solves.height_le (sound : s.Sound) (solves : s.Solves σ) {r x : Handle}
    (within : s.Within r x) : (σ r).height ≤ (σ x).height := by
  rw [solves.classes x]
  induction within using Relation.ReflTransGen.head_induction_on with
  | refl => exact le_rfl
  | head inside _ ih => exact (solves.height_lt sound inside).le.trans ih

/-- Where the occurs check strikes, the two types differ under every solution. -/
theorem Solves.ne_of_occurs (sound : s.Sound) (solves : s.Solves σ) {root : Handle} {t : Term}
    (distinct : t.DistinctNames) (occurs : s.occurs root t) : σ root ≠ t.ground σ := by
  intro equal
  obtain ⟨c, member, within⟩ := (occurs_iff sound.rooted).mp occurs
  have inside := Term.height_lt_height_ground σ distinct member
  have outside := solves.height_le sound within
  rw [equal] at outside
  omega

private theorem solves_link_iff (rooted : s.Rooted) {child root : Handle} (below : s.IsRoot child)
    (above : s.IsRoot root) (ne : child ≠ root) :
    (s.link child root).Solves σ ↔
      σ child = σ root ∧ (∀ x, σ x = σ (s.find x)) ∧
        ∀ x t, s.find x ≠ child → s.term? x = some t → σ x = t.ground σ := by
  have find_eq := find_link rooted below above ne
  have ofChild : (s.link child root).find child = root := by
    rw [find_eq, find_of_isRoot below, if_pos rfl]
  constructor
  · intro solves
    have equal : σ child = σ root := by rw [solves.classes child, ofChild]
    refine ⟨equal, fun x => ?_, fun x t outside bound => ?_⟩
    · have moved := solves.classes x
      rw [find_eq] at moved
      split at moved
      · rename_i inChild
        rw [moved, inChild, equal]
      · exact moved
    · apply solves.terms x t
      rw [term?, find_eq, if_neg outside]
      exact bound
  · rintro ⟨equal, classes, terms⟩
    constructor
    · intro x
      rw [find_eq]
      split
      · rename_i inChild
        rw [classes x, inChild, equal]
      · exact classes x
    · intro x t bound
      rw [term?, find_eq] at bound
      split at bound
      · rename_i inChild
        rw [classes x, inChild, equal]
        apply terms root t
        · rw [find_of_isRoot above]
          exact ne.symm
        · rw [term?, find_of_isRoot above]
          exact bound
      · rename_i outside
        exact terms x t outside bound

private theorem solves_join_iff (rooted : s.Rooted) {child root : Handle} (below : s.IsRoot child)
    (above : s.IsRoot root) (ne : child ≠ root) (unbound : s.terms[child]? = none) :
    (s.link child root).Solves σ ↔ s.Solves σ ∧ σ child = σ root := by
  rw [solves_link_iff rooted below above ne]
  constructor
  · rintro ⟨equal, classes, terms⟩
    refine ⟨⟨classes, fun x t bound => terms x t ?_ bound⟩, equal⟩
    intro inChild
    rw [term?, inChild, unbound] at bound
    cases bound
  · rintro ⟨solves, equal⟩
    exact ⟨equal, solves.classes, fun x t _ bound => solves.terms x t bound⟩

private theorem solves_merge_iff (rooted : s.Rooted) {child root : Handle} (below : s.IsRoot child)
    (above : s.IsRoot root) (ne : child ≠ root) {hidden kept : Term}
    (atChild : s.terms[child]? = some hidden) (atRoot : s.terms[root]? = some kept) :
    (s.link child root).Solves σ ∧ kept.ground σ = hidden.ground σ ↔
      s.Solves σ ∧ σ child = σ root := by
  have bound : s.term? root = some kept := by rw [term?, find_of_isRoot above, atRoot]
  rw [solves_link_iff rooted below above ne]
  constructor
  · rintro ⟨⟨equal, classes, terms⟩, sameGround⟩
    refine ⟨⟨classes, fun x t found => ?_⟩, equal⟩
    by_cases inChild : s.find x = child
    · rw [term?, inChild, atChild] at found
      obtain rfl := Option.some.inj found
      have isRoot : s.find root ≠ child := by
        rw [find_of_isRoot above]
        exact ne.symm
      rw [classes x, inChild, equal, terms root kept isRoot bound, sameGround]
    · exact terms x t inChild found
  · rintro ⟨solves, equal⟩
    have bound' : s.term? child = some hidden := by rw [term?, find_of_isRoot below, atChild]
    refine ⟨⟨equal, solves.classes, fun x t _ found => solves.terms x t found⟩, ?_⟩
    rw [← solves.terms root kept bound, ← solves.terms child hidden bound', equal]

private theorem solves_assign_iff {x : Handle} {t : Term} (unbound : s.term? x = none) :
    (s.assign (s.find x) t).Solves σ ↔ s.Solves σ ∧ σ x = t.ground σ := by
  have term?_eq : ∀ y, (s.assign (s.find x) t).term? y =
      if s.find y = s.find x then some t else s.term? y := by
    intro y
    rw [term?, find_assign, terms_assign_getElem?]
    rfl
  constructor
  · intro solves
    have classes : ∀ y, σ y = σ (s.find y) := by simpa using solves.classes
    refine ⟨⟨classes, fun y u bound => solves.terms y u ?_⟩, solves.terms x t ?_⟩
    · rw [term?_eq, if_neg, bound]
      intro same
      rw [term?, same] at bound
      rw [term?, bound] at unbound
      cases unbound
    · rw [term?_eq, if_pos rfl]
  · rintro ⟨solves, equal⟩
    refine ⟨by simpa using solves.classes, fun y u bound => ?_⟩
    rw [term?_eq] at bound
    split at bound
    · rename_i same
      obtain rfl := Option.some.inj bound
      rw [solves.eq_of_sameRoot same, equal]
    · exact solves.terms y u bound

section Meetings

variable {x y child root : Handle}

private theorem Sides.eq_iff (sides : s.Sides x y child root) (solves : s.Solves σ) :
    σ child = σ root ↔ σ x = σ y := by
  rw [solves.classes x, solves.classes y]
  rcases sides.order with ⟨rfl, rfl⟩ | ⟨rfl, rfl⟩
  · rfl
  · exact eq_comm

private theorem Meets.eq_of_same (met : s.Meets x y .same) (solves : s.Solves σ) : σ x = σ y := by
  cases met with
  | same equal => exact solves.eq_of_sameRoot equal

private theorem Meets.solves_join (rooted : s.Rooted) (met : s.Meets x y (.join child root)) :
    (s.link child root).Solves σ ↔ s.Solves σ ∧ σ x = σ y := by
  cases met with
  | join sides unbound apart =>
    rw [solves_join_iff rooted sides.below sides.above sides.ne unbound]
    exact and_congr_right fun solves => sides.eq_iff solves

private theorem Meets.solves_merge (sound : s.Sound) {parts : List Equation}
    (met : s.Meets x y (.merge child root parts)) :
    (s.link child root).Solves σ ∧ Satisfies σ parts ↔ s.Solves σ ∧ σ x = σ y := by
  cases met with
  | @merge _ _ t u _ sides left right paired apart =>
    have parts_iff : t.ground σ = u.ground σ ↔ Satisfies σ parts :=
      Term.ground_eq_iff_of_pairUp paired (sound.distinct _ t left) σ σ
    have merged : (s.link child root).Solves σ ∧ t.ground σ = u.ground σ ↔
        s.Solves σ ∧ σ child = σ root := by
      rcases sides.order with ⟨isLeft, isRight⟩ | ⟨isRight, isLeft⟩
      · rw [eq_comm (a := t.ground σ)]
        exact solves_merge_iff sound.rooted sides.below sides.above sides.ne
          (isLeft ▸ left) (isRight ▸ right)
      · exact solves_merge_iff sound.rooted sides.below sides.above sides.ne
          (isRight ▸ right) (isLeft ▸ left)
    rw [← parts_iff, merged]
    exact and_congr_right fun solves => sides.eq_iff solves

private theorem Meets.ne_of_clash (sound : s.Sound) {conflict : Conflict}
    (met : s.Meets x y (.clash conflict)) (solves : s.Solves σ) : σ x ≠ σ y := by
  cases met with
  | @mismatched t u reason differ left right unpaired =>
    rw [solves.terms x t left, solves.terms y u right]
    exact Term.ground_ne_of_pairUp unpaired (sound.distinct _ t left) (sound.distinct _ u right) σ σ
  | @cyclicLeft t differ left occurs =>
    rw [solves.terms x t left, solves.classes y]
    exact (solves.ne_of_occurs sound (sound.distinct _ t left) occurs).symm
  | @cyclicRight u differ right occurs =>
    rw [solves.terms y u right, solves.classes x]
    exact solves.ne_of_occurs sound (sound.distinct _ u right) occurs

end Meetings

end Store

/-- A report that decides the demand `P` on a store: the store it leaves has the solutions that
meet the demand, and a conflict says that no solution does. -/
structure Report.Decides (r : Report) (s : Store) (P : Assignment → Prop) : Prop where
  sound : r.store.Sound
  accepts : r.conflict? = none → ∀ σ, r.store.Solves σ ↔ s.Solves σ ∧ P σ
  refuses : ∀ conflict, r.conflict? = some conflict → ∀ σ, s.Solves σ → ¬ P σ

namespace Store

variable {s : Store}

private theorem Run.sound {equations : List Equation} {r : Report} (run : Run s equations r)
    (sound : s.Sound) : r.store.Sound where
  toFormed := run.formed sound.toFormed
  distinct k t bound := by
    rw [run.terms_eq] at bound
    exact sound.distinct k t bound

theorem Sides.sound_link (sound : s.Sound) {x y child root : Handle}
    (sides : s.Sides x y child root)
    (apart : ∀ t, s.terms[root]? = some t → ¬ s.occurs child t) : (s.link child root).Sound where
  toFormed := sides.formed_link sound.toFormed apart
  distinct := sound.distinct

private theorem Run.accepts {equations : List Equation} {r : Report} (run : Run s equations r)
    (sound : s.Sound) (done : r.conflict? = none) (σ : Assignment) :
    r.store.Solves σ ↔ s.Solves σ ∧ Satisfies σ equations := by
  induction run with
  | done s => exact (and_iff_left (satisfies_nil σ)).symm
  | same met tail ih =>
    rw [ih sound done, satisfies_cons]
    exact and_congr_right fun solves => (and_iff_right (met.eq_of_same solves)).symm
  | join met tail ih =>
    have linked := met.solves_join sound.rooted (σ := σ)
    cases met with
    | join sides unbound apart =>
      rw [Report.store_after, ih (sides.sound_link sound apart) done, linked, satisfies_cons,
        and_assoc]
  | merge met tail ih =>
    have linked := met.solves_merge sound (σ := σ)
    cases met with
    | merge sides left right paired apart =>
      rw [Report.store_after, ih (sides.sound_link sound apart) done, satisfies_append,
        ← and_assoc, linked, satisfies_cons, and_assoc]
  | clash met => cases done

private theorem Run.refuses {equations : List Equation} {r : Report} (run : Run s equations r)
    (sound : s.Sound) {conflict : Conflict} (failed : r.conflict? = some conflict)
    {σ : Assignment} (solves : s.Solves σ) : ¬ Satisfies σ equations := by
  induction run with
  | done s => cases failed
  | same met tail ih =>
    rw [satisfies_cons]
    rintro ⟨-, rest⟩
    exact ih sound failed solves rest
  | join met tail ih =>
    have linked := met.solves_join sound.rooted (σ := σ)
    rw [satisfies_cons]
    rintro ⟨equal, rest⟩
    cases met with
    | join sides unbound apart =>
      exact ih (sides.sound_link sound apart) failed (linked.mpr ⟨solves, equal⟩) rest
  | merge met tail ih =>
    have linked := met.solves_merge sound (σ := σ)
    rw [satisfies_cons]
    rintro ⟨equal, rest⟩
    obtain ⟨solves', parts⟩ := linked.mpr ⟨solves, equal⟩
    cases met with
    | merge sides left right paired apart =>
      exact ih (sides.sound_link sound apart) failed solves' (satisfies_append.mpr ⟨parts, rest⟩)
  | clash met =>
    rw [satisfies_cons]
    rintro ⟨equal, -⟩
    exact met.ne_of_clash sound solves equal

private theorem solveAll_decides (sound : s.Sound) (equations : List Equation) :
    (s.solveAll equations).Decides s (Satisfies · equations) where
  sound := (run_solveAll sound.rooted equations).sound sound
  accepts := (run_solveAll sound.rooted equations).accepts sound
  refuses _ failed _ solves := (run_solveAll sound.rooted equations).refuses sound failed solves

theorem unify_decides (sound : s.Sound) (x y : Handle) :
    (s.unify x y).Decides s fun σ => σ x = σ y := by
  have decided := solveAll_decides sound [(x, y)]
  simp only [satisfies_cons, satisfies_nil, and_true] at decided
  exact decided

private theorem failed_decides (sound : s.Sound) (conflict : Conflict) {P : Assignment → Prop}
    (absurd : ∀ σ, s.Solves σ → ¬ P σ) : (Report.failed s conflict).Decides s P where
  sound := sound
  accepts done := by cases done
  refuses _ _ := absurd

theorem bind_decides (sound : s.Sound) (x : Handle) {t : Term} (distinct : t.DistinctNames) :
    (s.bind x t).Decides s fun σ => σ x = t.ground σ := by
  rw [bind]
  split
  · rename_i occurs
    refine failed_decides sound _ fun σ solves equal => ?_
    rw [solves.classes] at equal
    exact solves.ne_of_occurs sound distinct occurs equal
  · rename_i apart
    have formed := formed_bind sound.toFormed x t
    rw [bind, if_neg apart] at formed
    split
    · rename_i unbound
      rw [unbound] at formed
      refine ⟨⟨formed, fun r u bound => ?_⟩, fun _ σ => solves_assign_iff unbound, ?_⟩
      · rw [terms_assign_getElem?] at bound
        split at bound
        · cases bound
          exact distinct
        · exact sound.distinct r u bound
      · intro conflict failed
        cases failed
    · rename_i u bound
      split
      · rename_i reason unpaired
        refine failed_decides sound _ fun σ solves equal => ?_
        rw [solves.terms x u bound] at equal
        exact Term.ground_ne_of_pairUp unpaired (sound.distinct _ u bound) distinct σ σ equal
      · rename_i parts paired
        have decided := solveAll_decides sound parts
        -- Under a solution the handle denotes its bound term, so the pairing says all there is.
        have parts_iff : ∀ σ, s.Solves σ → (Satisfies σ parts ↔ σ x = t.ground σ) := by
          intro σ solves
          rw [solves.terms x u bound,
            Term.ground_eq_iff_of_pairUp paired (sound.distinct _ u bound) σ σ]
          rfl
        refine ⟨decided.sound, fun done σ => ?_, fun conflict failed σ solves => ?_⟩
        · rw [decided.accepts done]
          exact and_congr_right (parts_iff σ)
        · rw [← parts_iff σ solves]
          exact decided.refuses conflict failed σ solves

theorem Built.sound (built : s.Built Term.DistinctNames) : s.Sound := by
  induction built with
  | empty => exact sound_empty
  | unify built x y ih => exact (unify_decides ih x y).sound
  | bind built x ok ih => exact (bind_decides ih x ok).sound

end Store

/-- A demand is decided in favour exactly when some solution meets it. -/
theorem Report.Decides.most_general {r : Report} {s : Store} {P : Assignment → Prop}
    (decided : r.Decides s P) (sound : s.Sound) :
    (r.conflict? = none ↔ ∃ σ, s.Solution σ ∧ P σ) ∧
      (r.conflict? = none → ∀ σ, r.store.Solution σ ↔ s.Solution σ ∧ P σ) := by
  have solution_iff := fun σ => Store.solution_iff_solves sound.toFormed (σ := σ)
  have solution_iff' := fun σ => Store.solution_iff_solves decided.sound.toFormed (σ := σ)
  refine ⟨⟨fun done => ?_, fun ⟨σ, solution, holds⟩ => ?_⟩, fun done σ => ?_⟩
  · have readOut := Store.solves_resolve decided.sound.toFormed fun _ => .int
    obtain ⟨solves, holds⟩ := (decided.accepts done _).mp readOut
    exact ⟨_, (solution_iff _).mpr solves, holds⟩
  · cases failed : r.conflict? with
    | none => rfl
    | some conflict =>
      exact absurd holds (decided.refuses conflict failed σ ((solution_iff σ).mp solution))
  · rw [solution_iff', solution_iff]
    exact decided.accepts done σ

namespace Store

/-- The store computes most general unifiers: a call succeeds exactly when some solution meets its
demand, and then leaves exactly the solutions that do. -/
theorem unify_bind_most_general {s : Store} (built : s.Built Term.DistinctNames) :
    (∀ x y : Handle,
      ((s.unify x y).conflict? = none ↔ ∃ σ, s.Solution σ ∧ σ x = σ y) ∧
      ((s.unify x y).conflict? = none → ∀ σ,
        (s.unify x y).store.Solution σ ↔ s.Solution σ ∧ σ x = σ y)) ∧
    ∀ (x : Handle) (t : Term), t.DistinctNames →
      ((s.bind x t).conflict? = none ↔ ∃ σ, s.Solution σ ∧ σ x = t.ground σ) ∧
      ((s.bind x t).conflict? = none → ∀ σ,
        (s.bind x t).store.Solution σ ↔ s.Solution σ ∧ σ x = t.ground σ) := by
  have sound := built.sound
  refine ⟨fun x y => ?_, fun x t distinct => ?_⟩
  · exact (unify_decides sound x y).most_general sound
  · exact (bind_decides sound x distinct).most_general sound

/-- Two records with their fields in different order, after a refused attempt to put the first
inside itself: they unify, and just the solutions that make them equal are left. -/
theorem unify_bind_most_general_records :
    let s := ((Store.bind {} 0 (.record [("a", 1), ("b", 2)])).store.unify 0 1).store.bind 3
      (.record [("b", 4), ("a", 5)]) |>.store
    s.Built Term.DistinctNames ∧ (s.unify 0 3).conflict? = none ∧
      ∀ σ, (s.unify 0 3).store.Solution σ ↔ s.Solution σ ∧ σ 0 = σ 3 := by
  intro s
  have built : s.Built Term.DistinctNames :=
    .bind (.unify (.bind .empty 0 (by decide)) 0 1) 3 (by decide)
  have done : (s.unify 0 3).conflict? = none := by decide +kernel
  exact ⟨built, done, ((unify_bind_most_general built).1 0 3).2 done⟩

end Store

end TypeInference
