import TypeInference.Proofs.Growth
import TypeInference.Proofs.Recursion
import TypeInference.Proofs.Rendering

/-!
# Conflicts are real

A conflict is found somewhere in the middle of a call and the work stops there. What it says is true
of the store that is then left: the handles it names are in classes that cannot be made one, for the
reason given, and the texts are those of their types. Only a term that was to be bound has a
conflict of its own, as it has no class.
-/

set_option autoImplicit false

namespace TypeInference

/-- The reason says in what the outlines of two terms differ. -/
structure Reason.Tells (reason : Reason) (t u : Term) : Prop where
  differ : t.outline ≠ u.outline
  shape : reason = .shape ↔ t.shape ≠ u.shape
  arity : ∀ n m, reason = .arity n m ↔
    n ≠ m ∧ t.outline = .function n ∧ u.outline = .function m
  fields : reason = .fields ↔
    ∃ names others, names ≠ others ∧ t.outline = .record names ∧ u.outline = .record others

namespace Term

variable {t u : Term}

private theorem exists_pairUp_of_outline_eq (distinct : t.DistinctNames)
    (distinct' : u.DistinctNames) (same : t.outline = u.outline) :
    ∃ parts, t.pairUp u = .ok parts := by
  cases t <;> cases u <;> simp only [outline, reduceCtorEq] at same
  case int.int => exact ⟨_, rfl⟩
  case pointer.pointer a b => exact ⟨_, rfl⟩
  case function.function params result params' result' =>
    exact ⟨_, if_pos (Outline.function.inj same)⟩
  case record.record fields others =>
    have names : (fields.map Prod.fst).Perm (others.map Prod.fst) :=
      List.perm_of_nodup_nodup_toFinset_eq distinct distinct' (Outline.record.inj same)
    have sameLength : fields.length = others.length := by simpa using names.length_eq
    rw [pairUp, if_pos sameLength]
    cases paired : pairFields fields others with
    | some pairs => exact ⟨_, rfl⟩
    | none =>
      obtain ⟨name, h, member, missing⟩ := exists_unpaired_of_pairFields paired
      have inOthers := names.mem_iff.mp (List.mem_map_of_mem (f := Prod.fst) member)
      obtain ⟨h', found⟩ := exists_lookup_of_mem_names inOthers
      rw [missing] at found
      cases found

private theorem tells_of_pairUp {reason : Reason} (unpaired : t.pairUp u = .error reason)
    (distinct : t.DistinctNames) (distinct' : u.DistinctNames) : reason.Tells t u := by
  have differ : t.outline ≠ u.outline := by
    intro same
    obtain ⟨parts, paired⟩ := exists_pairUp_of_outline_eq distinct distinct' same
    rw [unpaired] at paired
    cases paired
  cases t <;> cases u <;> simp only [pairUp, Except.error.injEq, reduceCtorEq] at unpaired
  case function.function params result params' result' =>
    split at unpaired
    · cases unpaired
    · rename_i lengths
      cases unpaired
      refine ⟨differ, by simp [shape], fun n m => ?_, by simp [outline]⟩
      simp only [outline, Reason.arity.injEq, Outline.function.injEq]
      constructor
      · rintro ⟨rfl, rfl⟩
        exact ⟨lengths, rfl, rfl⟩
      · rintro ⟨-, left, right⟩
        exact ⟨left, right⟩
  case record.record fields others =>
    have isFields : reason = .fields := by
      split at unpaired
      · split at unpaired <;> cases unpaired
        rfl
      · cases unpaired
        rfl
    subst isFields
    refine ⟨differ, by simp [shape], by simp [outline], iff_of_true rfl ?_⟩
    exact ⟨_, _, fun same => differ (congrArg Outline.record same), rfl, rfl⟩
  -- Two constructors: they are told apart before anything inside is looked at.
  all_goals
    subst unpaired
    exact ⟨differ, by simp [shape], by simp [outline], by simp [outline]⟩

end Term

namespace Store

variable {s : Store} {x y : Handle} {t u : Term} {conflict : Conflict}

/-- What a conflict says is to be seen in the store: two bound classes that the reason tells apart,
or a class with another one around it. -/
inductive Exhibits (s : Store) : Conflict → Prop
  | mismatch {reason : Reason} {left right : Handle} {t u : Term}
      (apart : ¬ s.sameClass left right) (bound : s.term? left = some t)
      (bound' : s.term? right = some u) (tells : reason.Tells t u) :
      Exhibits s (.mismatch reason left right (s.render left) (s.render right))
  | infinite {node outer : Handle} {t : Term} (bound : s.term? outer = some t)
      (encloses : s.Encloses outer node) :
      Exhibits s (.infinite node (s.render node) (s.renderTerm t))

private theorem exhibits_infinite (formed : s.Formed) (bound : s.term? x = some t)
    (occurs : s.occurs (s.find y) t) : s.Exhibits (s.infinite y (s.find y) t) := by
  rw [infinite, render_find formed.rooted]
  exact .infinite bound ((encloses_iff_occurs formed.rooted bound).mpr occurs)

private theorem Meets.exhibits (met : s.Meets x y (.clash conflict)) (sound : s.Sound) :
    s.Exhibits conflict := by
  cases met with
  | @mismatched t u reason differ left right unpaired =>
    have texts : s.render x = s.renderTerm t ∧ s.render y = s.renderTerm u :=
      ⟨render_of_bound sound.rooted sound.acyclic left,
        render_of_bound sound.rooted sound.acyclic right⟩
    rw [Store.mismatch, ← texts.1, ← texts.2]
    refine .mismatch ?_ left right ?_
    · rw [sameClass, beq_iff_eq]
      exact differ
    · exact Term.tells_of_pairUp unpaired (sound.distinct _ t left) (sound.distinct _ u right)
  | cyclicLeft differ left occurs => exact exhibits_infinite sound.toFormed left occurs
  | cyclicRight differ right occurs => exact exhibits_infinite sound.toFormed right occurs

private theorem Run.exhibits {equations : List Equation} {r : Report} (run : Run s equations r)
    (sound : s.Sound) (refused : r.conflict? = some conflict) : r.store.Exhibits conflict := by
  induction run with
  | done s => cases refused
  | same met tail ih => exact ih sound refused
  | join met tail ih =>
    cases met with
    | join sides unbound apart => exact ih (sides.sound_link sound apart) refused
  | merge met tail ih =>
    cases met with
    | merge sides left right paired apart => exact ih (sides.sound_link sound apart) refused
  | clash met =>
    obtain rfl := Option.some.inj refused
    exact met.exhibits sound

/-- Pairs are unified one after the other up to one that has the conflict, which leaves `s'`. -/
inductive StopsAt (s : Store) (equations : List Equation) (conflict : Conflict) (s' : Store) : Prop
  | pair {before after : List Equation} {a b : Handle} {n : Nat} {r : Report}
      (split : equations = before ++ (a, b) :: after) (earlier : s.UnifiesAll before n r)
      (accepted : r.conflict? = none) (refused : (r.store.unify a b).conflict? = some conflict)
      (left : (r.store.unify a b).store = s') : StopsAt s equations conflict s'

private theorem UnifiesAll.stopsAt :
    ∀ {s : Store} {equations : List Equation} {n : Nat} {r : Report},
    s.UnifiesAll equations n r → s.Rooted → r.conflict? = some conflict →
    s.StopsAt equations conflict r.store
  | _, _, _, _, .done _, _, refused => by cases refused
  | s, _, _, _, .stop first _, rooted, refused => by
    rw [first.eq_unify rooted] at refused ⊢
    exact .pair (List.nil_append _).symm (.done s) rfl refused rfl
  | _, _, _, _, .next first accepted later, rooted, refused => by
    obtain ⟨split, earlier, accepted', refused', left⟩ :=
      later.stopsAt (first.spends rooted).rooted refused
    rw [split]
    exact .pair (List.cons_append ..).symm (.next first accepted earlier) accepted' refused' left

/-- Why a term cannot be bound to a handle or matched with what is bound to it. -/
inductive Objects (s : Store) (x : Handle) (t : Term) : Conflict → Prop
  | mismatch {reason : Reason} {u : Term} (bound : s.term? x = some u)
      (tells : t.DistinctNames → reason.Tells u t) :
      Objects s x t (.mismatch reason x x (s.render x) (s.renderTerm t))
  | infinite (leadsBack : ∃ c ∈ t.children, s.Within (s.find x) c) :
      Objects s x t (.infinite x (s.render x) (s.renderTerm t))

/-- The conflict is that of a call of `unify` that binding the term makes, which ends the work. -/
inductive PassesOn (s : Store) (x : Handle) (t : Term) (conflict : Conflict) : Prop
  | call {s' : Store} {a b : Handle} (nests : Nests (s', .unify a b) (s, .bind x t))
      (refused : (s'.unify a b).conflict? = some conflict)
      (left : (s'.unify a b).store = (s.bind x t).store) : PassesOn s x t conflict

private theorem exhibits_solveAll (sound : s.Sound) {equations : List Equation}
    (refused : (s.solveAll equations).conflict? = some conflict) :
    (s.solveAll equations).store.Exhibits conflict :=
  (run_solveAll sound.rooted equations).exhibits sound refused

private theorem objects_or_passesOn (sound : s.Sound)
    (refused : (s.bind x t).conflict? = some conflict) :
    (s.bind x t).store = s ∧ s.Objects x t conflict ∨
      s.PassesOn x t conflict ∧ (s.bind x t).store.Exhibits conflict := by
  have rooted := sound.rooted
  obtain ⟨n, r, performs⟩ := exists_performs rooted (.bind x t)
  have equal : r = s.bind x t := performs.eq_run rooted
  rw [← equal] at refused ⊢
  cases performs with
  | cyclic occurs =>
    obtain rfl := Option.some.inj refused
    rw [Store.infinite, render_find rooted]
    exact .inl ⟨rfl, .infinite ((occurs_iff rooted).mp occurs)⟩
  | fresh apart unbound => cases refused
  | unmatched apart bound unpaired =>
    obtain rfl := Option.some.inj refused
    rw [Store.mismatch, ← render_of_bound rooted sound.acyclic bound]
    exact .inl ⟨rfl, .mismatch bound fun distinct =>
      Term.tells_of_pairUp unpaired (sound.distinct_term? bound) distinct⟩
  | matched apart bound paired unifies =>
    obtain ⟨split, earlier, accepted, refused', left⟩ := unifies.stopsAt rooted refused
    rw [split] at paired
    refine .inr ⟨⟨.bind apart bound paired earlier accepted, refused', ?_⟩, ?_⟩
    · rw [left, equal]
    · rw [unifies.eq_solveAll rooted] at refused ⊢
      exact exhibits_solveAll sound refused

/-- A conflict describes the store that a call leaves, however deep in the work it was found. One of
`unify` is exhibited there. One of `bind` is that of a nested call of `unify` and exhibited as well,
or it tells the term that was to be bound from the type of the handle, and the store is as it
was. -/
theorem conflicts_exhibited {s : Store} (built : s.Built Term.DistinctNames) :
    (∀ x y conflict, (s.unify x y).conflict? = some conflict →
      (s.unify x y).store.Exhibits conflict) ∧
    ∀ x t conflict, (s.bind x t).conflict? = some conflict →
      (s.bind x t).store = s ∧ s.Objects x t conflict ∨
        s.PassesOn x t conflict ∧ (s.bind x t).store.Exhibits conflict :=
  ⟨fun _ _ _ refused => exhibits_solveAll built.sound refused,
    fun _ _ _ refused => objects_or_passesOn built.sound refused⟩

/-- Two records are merged, and the fields of one name with them, before the fields of the other
name clash. The text of the function with a parameter names the class that its parameter is in by
then. A term that is matched with the later record clashes at the same place, and others clash at
once. -/
theorem conflicts_exhibited_half_merged :
    let s := [(0, Term.record [("g", 1), ("f", 2)]), (3, .record [("f", 4), ("g", 5)]),
      (1, .function [] 6), (5, .function [4] 7)].foldl (fun s (x, t) => (s.bind x t).store)
        ({} : Store)
    let conflict := Conflict.mismatch (.arity 1 0) 5 1 "(?2) -> ?7" "() -> ?6"
    s.Built Term.DistinctNames ∧ s.render 5 = "(?4) -> ?7" ∧
      (s.unify 3 0).conflict? = some conflict ∧ (s.unify 3 0).store.Exhibits conflict ∧
      (s.bind 3 (.record [("f", 2), ("g", 1)])).store.Exhibits conflict ∧
      s.Objects 1 .int (.mismatch .shape 1 1 "() -> ?6" "int") ∧
      s.Objects 4 (.pointer 5) (.infinite 4 "?4" "&(?4) -> ?7") := by
  intro s conflict
  have built : s.Built Term.DistinctNames :=
    .bind (.bind (.bind (.bind .empty 0 (by decide)) 3 (by decide)) 1 (by decide)) 5 (by decide)
  obtain ⟨unified, bound⟩ := conflicts_exhibited built
  have deep : (s.unify 3 0).conflict? = some conflict := by decide +kernel
  refine ⟨built, by decide +kernel, deep, unified 3 0 conflict deep, ?_, ?_, ?_⟩
  · rcases bound 3 (.record [("f", 2), ("g", 1)]) conflict (by decide +kernel) with
      ⟨-, objects⟩ | ⟨-, exhibits⟩
    · dsimp only [conflict] at objects
      cases objects
    · exact exhibits
  · rcases bound 1 .int (.mismatch .shape 1 1 "() -> ?6" "int") (by decide +kernel) with
      ⟨-, objects⟩ | ⟨⟨nests, -, -⟩, -⟩
    · exact objects
    · cases nests with
      | bind apart found paired earlier accepted =>
        have function : s.term? 1 = some (.function [] 6) := by decide +kernel
        obtain rfl := Option.some.inj (function.symm.trans found)
        cases paired
  · rcases bound 4 (.pointer 5) (.infinite 4 "?4" "&(?4) -> ?7") (by decide +kernel) with
      ⟨-, objects⟩ | ⟨⟨nests, -, -⟩, -⟩
    · exact objects
    · cases nests with
      | bind apart found paired earlier accepted => exact absurd (by decide +kernel) apart

end Store

end TypeInference
