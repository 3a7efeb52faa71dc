import TypeInference.Checker.Basic

/-!
# How a run ends

One triple describes runs of a check: what holds of the result and the checker where a run
succeeds, and of the error and the checker where it fails. Everything else that is said of runs is
said through it, so that sequences, loops and looks at the checker are reasoned about in one place.
-/

set_option autoImplicit false

namespace TypeInference

namespace Checker

section Runs

variable {α β : Type} {c c' c'' : Checker} {m : CheckM α} {e : TypeError}

theorem get_bind_apply (f : Checker → CheckM α) : (get >>= f) c = f c c := rfl

theorem bind_apply_ok {f : α → CheckM β} {a : α} (ran : m c = .ok a c') :
    (m >>= f) c = f a c' := by
  change EStateM.bind m f c = _
  rw [EStateM.bind, ran]

theorem bind_apply_error {f : α → CheckM β} (ran : m c = .error e c') :
    (m >>= f) c = .error e c' := by
  change EStateM.bind m f c = _
  rw [EStateM.bind, ran]

/-- A run that succeeds has succeeded in its parts in turn. -/
theorem exists_of_bind_eq_ok {f : α → CheckM β} {b : β} (ran : (m >>= f) c = .ok b c'') :
    ∃ a c', m c = .ok a c' ∧ f a c' = .ok b c'' := by
  cases first : m c with
  | ok a c' =>
    rw [bind_apply_ok first] at ran
    exact ⟨a, c', rfl, ran⟩
  | error e c' =>
    rw [bind_apply_error first] at ran
    cases ran

/-- What a run gives was given by its parts in turn. -/
theorem exists_of_bind {f : α → CheckM β} {b : β} (ran : (m >>= f).run' c = some b) :
    ∃ a c', m c = .ok a c' ∧ (f a).run' c' = some b := by
  cases all : (m >>= f) c with
  | ok b' c'' =>
    obtain ⟨a, c', first, second⟩ := exists_of_bind_eq_ok all
    refine ⟨a, c', first, ?_⟩
    delta EStateM.run' EStateM.run at ran ⊢
    rw [all] at ran
    rw [second]
    exact ran
  | error e c' =>
    delta EStateM.run' EStateM.run at ran
    rw [all] at ran
    cases ran

theorem discard_eq (m : CheckM α) : (discard m : CheckM Unit) = m >>= fun _ => pure () := by
  funext c
  change EStateM.map _ m c = EStateM.bind m _ c
  rw [EStateM.map, EStateM.bind]
  cases m c <;> rfl

end Runs

/-- Run from `c`, a step that succeeds ends as `K` says, and one that fails as `E` says. -/
def Ending {α : Type} (c : Checker) (m : CheckM α) (K : α → Checker → Prop)
    (E : TypeError → Checker → Prop) : Prop :=
  match m c with
  | .ok a c' => K a c'
  | .error e c' => E e c'

/-- The checker that a run leaves, whether it succeeds or not. -/
def after {α : Type} (m : CheckM α) (c : Checker) : Checker :=
  match m c with
  | .ok _ c' => c'
  | .error _ c' => c'

section Ending

variable {α β : Type} {c c' : Checker} {m : CheckM α} {K L : α → Checker → Prop}
  {E F : TypeError → Checker → Prop}

theorem Ending.of_ok (ending : c.Ending m K E) {a : α} (ran : m c = .ok a c') : K a c' := by
  rwa [Ending, ran] at ending

theorem Ending.of_error (ending : c.Ending m K E) {e : TypeError} (ran : m c = .error e c') :
    E e c' := by
  rwa [Ending, ran] at ending

theorem ending_of_runs (ends : ∀ a c', m c = .ok a c' → K a c')
    (fails : ∀ e c', m c = .error e c' → E e c') : c.Ending m K E := by
  rw [Ending]
  cases ran : m c with
  | ok a c' => exact ends a c' ran
  | error e c' => exact fails e c' ran

theorem Ending.cases (ending : c.Ending m K E) :
    (∃ e c', m c = .error e c' ∧ E e c') ∨ ∃ a c', m c = .ok a c' ∧ K a c' := by
  cases ran : m c with
  | ok a c' => exact .inr ⟨a, c', rfl, ending.of_ok ran⟩
  | error e c' => exact .inl ⟨e, c', rfl, ending.of_error ran⟩

/-- A step may be traded for another that does the same, even from another checker. -/
theorem Ending.of_eq {next : CheckM α} {d : Checker} (ending : d.Ending next K E)
    (same : m c = next d) : c.Ending m K E := by
  rw [Ending, same]
  exact ending

theorem Ending.imp (ending : c.Ending m K E) (ends : ∀ a c', K a c' → L a c')
    (fails : ∀ e c', E e c' → F e c') : c.Ending m L F :=
  ending_of_runs (fun a c' ran => ends a c' (ending.of_ok ran))
    fun e c' ran => fails e c' (ending.of_error ran)

theorem Ending.post (ending : c.Ending m K E) (ends : ∀ a c', K a c' → L a c') :
    c.Ending m L E := ending.imp ends fun _ _ => id

/-- What is known of a run in two ways is known of it where it succeeds. -/
theorem Ending.and (ending : c.Ending m K E) (other : c.Ending m L F) :
    c.Ending m (fun a c' => K a c' ∧ L a c') E :=
  ending_of_runs (fun _ _ ran => ⟨ending.of_ok ran, other.of_ok ran⟩) fun _ _ => ending.of_error

/-- What a run gives may be spoken of as its result. -/
theorem Ending.ran (ending : c.Ending m K E) :
    c.Ending m (fun a c' => K a c' ∧ m c = .ok a c') E :=
  ending.and (ending_of_runs (fun _ _ => id) fun _ _ _ => trivial)

theorem Ending.after {I : Checker → Prop} (ending : c.Ending m (fun _ => I) fun _ => I) :
    I (c.after m) := by
  rw [Ending] at ending
  rw [Checker.after]
  cases ran : m c <;> rwa [ran] at ending

theorem ending_pure {a : α} (ends : K a c) : c.Ending (pure a) K E := ends

theorem ending_throw {e : TypeError} (fails : E e c) : c.Ending (throw e) K E := fails

theorem ending_modify {g : Checker → Checker} {f : Unit → CheckM α}
    (next : (g c).Ending (f ()) K E) : c.Ending (modify g >>= f) K E := next

theorem ending_get {f : Checker → CheckM α} (next : c.Ending (f c) K E) :
    c.Ending (get >>= f) K E := next

theorem Ending.bind {f : α → CheckM β} {L : β → Checker → Prop} (first : c.Ending m K E)
    (second : ∀ a c', K a c' → c'.Ending (f a) L E) : c.Ending (m >>= f) L E := by
  cases ran : m c with
  | ok a c' => exact (second a c' (first.of_ok ran)).of_eq (bind_apply_ok ran)
  | error e c' =>
    rw [Ending, bind_apply_error ran]
    exact first.of_error ran

theorem ending_discard {K : Unit → Checker → Prop} (ending : c.Ending m (fun _ => K ()) E) :
    c.Ending (discard m) K E := by
  rw [discard_eq]
  exact ending.bind fun _ _ ends => ending_pure ends

/-- Work on the store is taken over whether or not it ends in a conflict. -/
theorem ending_absorb {span : Span} {work : Store → Report} {K : Unit → Checker → Prop}
    (ends : (work c.store).conflict? = none → ∀ log, K () { c with
      store := (work c.store).store, log })
    (fails : ∀ conflict, (work c.store).conflict? = some conflict → ∀ log,
      E (.conflict conflict span) { c with store := (work c.store).store, log }) :
    c.Ending (absorb span work) K E := by
  rw [Ending, absorb]
  cases outcome : (work c.store).conflict? with
  | none => exact ends outcome _
  | some conflict => exact fails conflict outcome _

/-- Steps one after the other, with an invariant that knows the items that are done. -/
theorem ending_forM {xs : List β} {step : β → CheckM Unit} {I : List β → Checker → Prop}
    (steps : ∀ done x rest, xs = done ++ x :: rest → ∀ c, I done c →
      c.Ending (step x) (fun _ c' => I (done ++ [x]) c') E) (start : I [] c) :
    c.Ending (xs.forM step) (fun _ c' => I xs c') E := by
  -- the induction is on the items that remain, `done` being those behind
  suffices remaining : ∀ rest done c, xs = done ++ rest → I done c →
      c.Ending (rest.forM step) (fun _ c' => I xs c') E from remaining xs [] c rfl start
  intro rest
  induction rest with
  | nil =>
    intro done c split inv
    rw [List.append_nil] at split
    exact split ▸ inv
  | cons x rest ih =>
    intro done c split inv
    exact (steps done x rest split c inv).bind fun _ c' inv' =>
      ih (done ++ [x]) c' (by simp [split]) inv'

/-- Steps that each keep a property of the checker keep it one after the other. -/
theorem ending_forM_each {xs : List β} {step : β → CheckM Unit} {I : Checker → Prop}
    (steps : ∀ x ∈ xs, ∀ c, I c → c.Ending (step x) (fun _ => I) E) (start : I c) :
    c.Ending (xs.forM step) (fun _ => I) E :=
  ending_forM (I := fun _ => I) (fun _ x _ split => steps x (by simp [split])) start

theorem ending_mapM_each {xs : List β} {step : β → CheckM α} {I : Checker → Prop}
    (steps : ∀ x ∈ xs, ∀ c, I c → c.Ending (step x) (fun _ => I) E) (start : I c) :
    c.Ending (xs.mapM step) (fun _ => I) E := by
  induction xs generalizing c with
  | nil => exact ending_pure start
  | cons x rest ih =>
    obtain ⟨first, others⟩ := List.forall_mem_cons.mp steps
    rw [List.mapM_cons]
    exact (first c start).bind fun _ _ kept => (ih others kept).bind fun _ _ kept' =>
      ending_pure kept'

end Ending

end Checker

end TypeInference
