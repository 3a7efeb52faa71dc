import TypeInference.Proofs.Congruence

/-!
# Terms that a merge leaves behind

Where two bound classes merge, one of the two terms is read from then on and the other never again.
Nothing is lost with it: as long as calls succeed, every term that was bound or matched at some time
still corresponds, handle by handle, to the term that its class is bound to. The middle of a merge
breaks this and the end of the call restores it, so it is stated between calls.
-/

set_option autoImplicit false

namespace TypeInference

namespace Term

/-- Two handles at one place of two terms: what pointers point to, parameters of one position,
results, fields of one name. -/
inductive Corresponds : Term → Term → Handle → Handle → Prop
  | target (a b : Handle) : Corresponds (.pointer a) (.pointer b) a b
  | param {params others : List Handle} {result result' a b : Handle} {i : Nat}
      (left : params[i]? = some a) (right : others[i]? = some b) :
      Corresponds (.function params result) (.function others result') a b
  | result (params others : List Handle) (a b : Handle) :
      Corresponds (.function params a) (.function others b) a b
  | field {fields others : List (String × Handle)} {name : String} {a b : Handle}
      (left : (name, a) ∈ fields) (right : (name, b) ∈ others) :
      Corresponds (.record fields) (.record others) a b

variable {t u : Term} {parts : List Equation}

private theorem Corresponds.mem_parts {a b : Handle} (corresponds : t.Corresponds u a b)
    (paired : t.pairUp u = .ok parts) (distinct : u.DistinctNames) : (a, b) ∈ parts := by
  cases corresponds with
  | target =>
    cases paired
    exact List.mem_singleton_self _
  | @param params others result result' _ _ i left right =>
    rw [pairUp] at paired
    split at paired
    · cases paired
      refine List.mem_append_left _ (List.mem_of_getElem? (i := i) ?_)
      exact List.getElem?_zip_eq_some.mpr ⟨left, right⟩
    · cases paired
  | result =>
    rw [pairUp] at paired
    split at paired
    · cases paired
      exact List.mem_append_right _ (List.mem_singleton_self _)
    · cases paired
  | field left right =>
    rw [pairUp] at paired
    split at paired
    · split at paired
      · rename_i pairs pairedFields
        cases paired
        have found := lookup_of_mem distinct right
        exact List.mem_map.mpr
          ⟨_, mem_sortByName.mpr ((mem_pairFields pairedFields).mpr ⟨left, found⟩), rfl⟩
      · cases paired
    · cases paired

end Term

namespace Store

variable {s s' : Store} {c x : Handle} {t u : Term}

theorem exists_pairUp_of_alike (distinct : t.DistinctNames) (distinct' : u.DistinctNames)
    (alike : s.Alike t u) : ∃ parts, t.pairUp u = .ok parts ∧ ∀ e ∈ parts, s.sameClass e.1 e.2 := by
  cases paired : t.pairUp u with
  | error reason => exact absurd alike (Term.ground_ne_of_pairUp paired distinct distinct' _ _)
  | ok parts =>
    refine ⟨parts, rfl, fun e member => tag_eq_iff.mp ?_⟩
    exact (Term.ground_eq_iff_of_pairUp paired distinct s.tag s.tag).mp alike e member

private theorem Alike.mono (alike : s.Alike t u) (distinct : t.DistinctNames)
    (distinct' : u.DistinctNames) (classes : ∀ x y, s.sameClass x y → s'.sameClass x y) :
    s'.Alike t u := by
  obtain ⟨parts, paired, same⟩ := exists_pairUp_of_alike distinct distinct' alike
  exact alike_of_pairUp distinct paired fun e member => classes _ _ (same e member)

/-- The class of a handle is bound to a term like the given one. -/
def Agrees (s : Store) (c : Handle) (t : Term) : Prop := ∃ u, s.term? c = some u ∧ s.Alike u t

theorem agrees_of_term? (bound : s.term? c = some t) : s.Agrees c t := ⟨t, bound, rfl⟩

private theorem Agrees.solveAll (agrees : s.Agrees c t) (sound : s.Sound)
    (distinct : t.DistinctNames) {equations : List Equation}
    (accepted : (s.solveAll equations).conflict? = none) :
    (s.solveAll equations).store.Agrees c t := by
  obtain ⟨u, bound, alike⟩ := agrees
  obtain ⟨v, bound', alike'⟩ := (run_solveAll sound.rooted equations).alike sound accepted bound
  have later := alike.mono (sound.distinct_term? bound) distinct
    (extends_solveAll sound equations).classes
  exact ⟨v, bound', alike'.symm.trans later⟩

private theorem Agrees.assign (agrees : s.Agrees c t) (sound : s.Sound) (distinct : t.DistinctNames)
    {root : Handle} (unbound : s.terms[root]? = none) : (s.assign root u).Agrees c t := by
  obtain ⟨v, bound, alike⟩ := agrees
  have extension := extends_assign unbound u
  refine ⟨v, ?_, alike.mono (sound.distinct_term? bound) distinct extension.classes⟩
  rw [term?, find_assign]
  exact extension.terms _ v bound

/-- A term that is accepted is bound or matched. -/
theorem bind_of_accepted (accepted : (s.bind x t).conflict? = none) :
    (s.term? x = none ∧ (s.bind x t).store = s.assign (s.find x) t) ∨
      ∃ u parts, s.term? x = some u ∧ u.pairUp t = .ok parts ∧ s.bind x t = s.solveAll parts := by
  by_cases occurs : s.occurs (s.find x) t
  · simp [bind, occurs, Report.failed] at accepted
  · cases bound : s.terms[s.find x]? with
    | none =>
      refine .inl ⟨bound, ?_⟩
      rw [bind, if_neg occurs, bound]
    | some u =>
      cases paired : u.pairUp t with
      | error reason => simp [bind, occurs, bound, paired, Report.failed] at accepted
      | ok parts =>
        refine .inr ⟨u, parts, bound, paired, ?_⟩
        simp only [bind, if_neg occurs, bound, paired]

section Calls

variable {call : Call}

/-- What a class agrees with it agrees with after every call that succeeds. -/
theorem Agrees.run (agrees : s.Agrees c t) (sound : s.Sound) (distinct : t.DistinctNames)
    (accepted : (call.run s).conflict? = none) : (call.run s).store.Agrees c t := by
  cases call with
  | unify x y => exact agrees.solveAll sound distinct accepted
  | bind x u =>
    rw [Call.run] at accepted ⊢
    rcases bind_of_accepted accepted with ⟨unbound, equal⟩ | ⟨v, parts, -, -, equal⟩
    · rw [equal]
      exact agrees.assign sound distinct unbound
    · rw [equal] at accepted ⊢
      exact agrees.solveAll sound distinct accepted

/-- A class agrees with the term that was bound to it or matched with its own. -/
theorem agrees_bind (sound : s.Sound) (accepted : (s.bind x t).conflict? = none) :
    (s.bind x t).store.Agrees x t := by
  rcases bind_of_accepted accepted with ⟨-, equal⟩ | ⟨u, parts, bound, paired, equal⟩
  · rw [equal]
    apply agrees_of_term?
    rw [term?, find_assign, terms_assign_getElem?, if_pos rfl]
  · rw [equal] at accepted ⊢
    have run := run_solveAll sound.rooted parts
    have matched := alike_of_pairUp (sound.distinct_term? bound) paired
      (run.sameClass sound accepted)
    obtain ⟨v, bound', alike⟩ := run.alike sound accepted bound
    exact ⟨v, bound', alike.symm.trans matched⟩

/-- Every term in the map, read or not, agrees with the class of the handle it was bound to. -/
def Faithful (s : Store) : Prop := ∀ (c : Handle) (t : Term), s.terms[c]? = some t → s.Agrees c t

private theorem faithful_empty : Faithful {} := by
  intro c t found
  rw [show (Store.terms {})[c]? = none from Std.TreeMap.getElem?_emptyc] at found
  cases found

private theorem Faithful.run (faithful : s.Faithful) (sound : s.Sound)
    (accepted : (call.run s).conflict? = none) : (call.run s).store.Faithful := by
  intro c t found
  by_cases earlier : s.terms[c]? = some t
  -- Also where the call has linked the class of `c` away, its new term is like the old one.
  · exact (faithful c t earlier).run sound (sound.distinct c t earlier) accepted
  · cases call with
    | unify x y =>
      rw [Call.run, unify, (run_solveAll sound.rooted _).terms_eq] at found
      exact absurd found earlier
    | bind x u =>
      rw [Call.run] at accepted found ⊢
      rcases bind_of_accepted accepted with ⟨unbound, equal⟩ | ⟨v, parts, -, -, equal⟩
      · rw [equal] at found ⊢
        rw [terms_assign_getElem?] at found
        split at found
        · rename_i atRoot
          apply agrees_of_term?
          rw [term?, find_assign, terms_assign_getElem?, atRoot, sound.rooted.find_find,
            if_pos rfl, found]
        · exact absurd found earlier
      · rw [equal, (run_solveAll sound.rooted parts).terms_eq] at found
        exact absurd found earlier

end Calls

private theorem runAll_agrees (built : s.Built Term.DistinctNames) {calls : List Call}
    (distinct : ∀ call ∈ calls, call.DistinctNames) (ran : s.runAll calls = .ok s') :
    (s.Faithful → s'.Faithful) ∧
      (∀ c t, t.DistinctNames → s.Agrees c t → s'.Agrees c t) ∧
      ∀ c t, .bind c t ∈ calls → s'.Agrees c t := by
  induction calls generalizing s with
  | nil =>
    cases ran
    exact ⟨id, fun _ _ _ => id, fun _ _ member => by cases member⟩
  | cons call rest ih =>
    obtain ⟨first, others⟩ := List.forall_mem_cons.mp distinct
    have sound := built.sound
    rw [runAll] at ran
    cases accepted : (call.run s).conflict? with
    | some conflict =>
      rw [accepted] at ran
      cases ran
    | none =>
      rw [accepted] at ran
      obtain ⟨faithful, agrees, bound⟩ := ih (Call.built_run built first) others ran
      refine ⟨fun start => faithful (start.run sound accepted), ?_, ?_⟩
      · exact fun c t plain earlier => agrees c t plain (earlier.run sound plain accepted)
      · intro c t member
        rcases List.mem_cons.mp member with rfl | later
        · exact agrees c t first (agrees_bind sound accepted)
        · exact bound c t later

/-- The class of a handle is bound to a term that has the outline of the given one and pairs up with
it, and handles at one place of the two are in one class. -/
def Retains (s : Store) (c : Handle) (t : Term) : Prop :=
  ∃ u, s.term? c = some u ∧ u.outline = t.outline ∧ (∃ parts, u.pairUp t = .ok parts) ∧
    ∀ a b, u.Corresponds t a b → s.sameClass a b

private theorem Agrees.retains (agrees : s.Agrees c t) (sound : s.Sound)
    (distinct : t.DistinctNames) : s.Retains c t := by
  obtain ⟨u, bound, alike⟩ := agrees
  have distinct' := sound.distinct_term? bound
  obtain ⟨parts, paired, same⟩ := exists_pairUp_of_alike distinct' distinct alike
  exact ⟨u, bound, Term.outline_eq_of_pairUp distinct' paired, ⟨parts, paired⟩,
    fun a b corresponds => same (a, b) (corresponds.mem_parts paired distinct)⟩

/-- Nothing is lost with a term that a merge leaves behind. After a run of calls that all succeed,
the term of every class corresponds to each term in the map for one of its handles, and to each term
that was bound to one of them in the run. -/
theorem runAll_retains {calls : List Call} {s : Store}
    (distinct : ∀ call ∈ calls, call.DistinctNames) (ran : runAll {} calls = .ok s) :
    (∀ (c : Handle) (t : Term), s.terms[c]? = some t → s.Retains c t) ∧
      ∀ c t, .bind c t ∈ calls → s.Retains c t := by
  have sound := (solves_runAll .empty distinct ran).1.sound
  obtain ⟨faithful, -, bound⟩ := runAll_agrees .empty distinct ran
  refine ⟨fun c t found => ?_, fun c t member => ?_⟩
  · exact (faithful faithful_empty c t found).retains sound (sound.distinct c t found)
  · exact (bound c t member).retains sound (distinct _ member)

/-- Two records with their fields in different orders meet, and a third one is matched with the term
that is left. The term of the second is out of sight, and the third was never put into the map. -/
theorem runAll_retains_records :
    let calls := [Call.bind 0 (.record [("f", 1), ("g", 2)]),
      .bind 3 (.record [("g", 4), ("f", 5)]), .bind 4 (.pointer 6), .unify 3 0,
      .bind 3 (.record [("g", 7), ("f", 8)])]
    (∀ call ∈ calls, call.DistinctNames) ∧ ∃ s, runAll {} calls = .ok s ∧
      s.term? 3 = some (.record [("f", 1), ("g", 2)]) ∧
      s.terms[3]? = some (.record [("g", 4), ("f", 5)]) ∧
      s.Retains 3 (.record [("g", 4), ("f", 5)]) ∧ s.Retains 3 (.record [("g", 7), ("f", 8)]) := by
  intro calls
  have distinct : ∀ call ∈ calls, call.DistinctNames := by
    simp [calls, Call.DistinctNames, Term.DistinctNames]
  have bound : (runAll {} calls).toOption.map (fun s => (s.term? 3, s.terms[3]?)) =
      some (some (.record [("f", 1), ("g", 2)]), some (.record [("g", 4), ("f", 5)])) := by
    decide +kernel
  cases ran : runAll {} calls with
  | error conflict =>
    rw [ran] at bound
    cases bound
  | ok s =>
    rw [ran] at bound
    obtain ⟨inUse, outOfSight⟩ := Prod.mk.inj (Option.some.inj bound)
    obtain ⟨inMap, inRun⟩ := runAll_retains distinct ran
    exact ⟨distinct, s, rfl, inUse, outOfSight, inMap 3 _ outOfSight,
      inRun 3 _ (by simp [calls])⟩

end Store

end TypeInference
