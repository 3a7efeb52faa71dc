import TypeInference.Proofs.Calls

/-!
# Unification as a recursion

To unify two bound classes is to link them and then to unify the handles inside their terms, pair
by pair, each in the store that the pairs before it have left. This recursion is stated here without
a bound on its depth and without a list of pending equations, and it is what solving computes. Every
merge leaves one bound root fewer and at least one of them, so nested calls come to an end, and
there are fewer merges than bound roots.
-/

set_option autoImplicit false

namespace TypeInference

namespace Report

/-- The report of work that was followed by further work. -/
def append (r r' : Report) : Report := { r' with events := r.events ++ r'.events }

/-- Go on with further work unless there was a conflict. -/
def andThen (r : Report) (next : Store → Report) : Report :=
  match r.conflict? with
  | none => r.append (next r.store)
  | some _ => r

private theorem andThen_of_accepted {r : Report} (accepted : r.conflict? = none)
    (next : Store → Report) : r.andThen next = r.append (next r.store) := by
  rw [andThen, accepted]

private theorem andThen_of_refused {r : Report} (refused : r.conflict? ≠ none)
    (next : Store → Report) : r.andThen next = r := by
  rw [andThen]
  split
  · rename_i accepted
    exact absurd accepted refused
  · rfl

private theorem andThen_after (event : Event) (r : Report) (next : Store → Report) :
    (r.after event).andThen next = (r.andThen next).after event := by
  simp only [andThen, conflict?_after, store_after]
  cases r.conflict? <;> rfl

end Report

namespace Store

variable {s : Store}

section Bound

variable {x y child root : Handle} {parts : List Equation}

private theorem Meets.boundRoots_join (met : s.Meets x y (.join child root)) :
    (s.link child root).boundRoots = s.boundRoots := by
  cases met with
  | join sides unbound apart =>
    rw [boundRoots_link]
    refine Finset.erase_eq_of_notMem fun member => ?_
    obtain ⟨-, t, bound⟩ := mem_boundRoots.mp member
    rw [unbound] at bound
    cases bound

private theorem Meets.card_boundRoots_merge (met : s.Meets x y (.merge child root parts)) :
    1 + (s.link child root).boundRoots.card = s.boundRoots.card := by
  have member := met.child_mem_boundRoots
  have positive := Finset.card_pos.mpr ⟨child, member⟩
  rw [boundRoots_link, Finset.card_erase_of_mem member]
  omega

private theorem Meets.root_mem_boundRoots (met : s.Meets x y (.merge child root parts)) :
    root ∈ (s.link child root).boundRoots := by
  cases met with
  | merge sides left right paired apart =>
    rw [boundRoots_link, Finset.mem_erase, mem_boundRoots]
    refine ⟨sides.ne.symm, sides.above, ?_⟩
    rcases sides.order with ⟨-, rfl⟩ | ⟨-, rfl⟩
    · exact ⟨_, right⟩
    · exact ⟨_, left⟩

end Bound

/-- Induction over work on equations. After a merge the hypothesis is at hand for every store with
fewer bound roots, whatever equations are then to be solved. -/
theorem solving_induction {P : ∀ s : Store, s.Rooted → List Equation → Prop}
    (done : ∀ s rooted, P s rooted [])
    (same : ∀ s rooted x y rest, s.meet x y = .same → P s rooted rest →
      P s rooted ((x, y) :: rest))
    (join : ∀ s rooted x y child root rest, s.meet x y = .join child root →
      ∀ linked, P (s.link child root) linked rest → P s rooted ((x, y) :: rest))
    (merge : ∀ s rooted x y child root parts rest, s.meet x y = .merge child root parts →
      (∀ s' rooted' equations, s'.boundRoots.card < s.boundRoots.card → P s' rooted' equations) →
      P s rooted ((x, y) :: rest))
    (clash : ∀ s rooted x y conflict rest, s.meet x y = .clash conflict →
      P s rooted ((x, y) :: rest))
    (s : Store) (rooted : s.Rooted) (equations : List Equation) : P s rooted equations := by
  -- A merge lowers the number of bound roots, which is why its pairs may make the list longer.
  -- Everything else keeps the number and shortens the list.
  have bounded : ∀ n equations (s : Store) (rooted : s.Rooted), s.boundRoots.card ≤ n →
      P s rooted equations := by
    intro n
    induction n using Nat.strong_induction_on with
    | _ n fewer =>
      intro equations
      induction equations with
      | nil => exact fun s rooted _ => done s rooted
      | cons equation rest ih =>
        intro s rooted enough
        obtain ⟨x, y⟩ := equation
        cases met : s.meet x y with
        | same => exact same s rooted x y rest met (ih s rooted enough)
        | join child root =>
          have decided := meets_of_meet rooted met
          have linked := decided.rooted_join rooted
          refine join s rooted x y child root rest met linked (ih _ linked ?_)
          rw [decided.boundRoots_join]
          exact enough
        | merge child root parts =>
          refine merge s rooted x y child root parts rest met fun s' rooted' equations less => ?_
          exact fewer _ (less.trans_le enough) equations s' rooted' le_rfl
        | clash conflict => exact clash s rooted x y conflict rest met
  exact bounded _ equations s rooted le_rfl

section Solving

variable {merged merged' : Store → List Equation → Report}

private theorem solveWith_congr (rooted : s.Rooted)
    (agree : ∀ (s' : Store) equations, s'.Rooted → s'.boundRoots.card < s.boundRoots.card →
      merged s' equations = merged' s' equations) (equations : List Equation) :
    s.solveWith merged equations = s.solveWith merged' equations := by
  induction equations generalizing s with
  | nil => rfl
  | cons equation rest ih =>
    obtain ⟨x, y⟩ := equation
    rw [solveWith, solveWith]
    cases met : s.meet x y with
    | same => exact ih rooted agree
    | join child root =>
      have decided := meets_of_meet rooted met
      refine congrArg (Report.after _) (ih (decided.rooted_join rooted) ?_)
      rw [decided.boundRoots_join]
      exact agree
    | merge child root parts =>
      have decided := meets_of_meet rooted met
      refine congrArg (Report.after _) (agree _ _ (decided.rooted_merge rooted) ?_)
      have counted := decided.card_boundRoots_merge
      omega
    | clash conflict => rfl

private theorem solve_eq_of_enough {n m : Nat} (rooted : s.Rooted) (enough : s.boundRoots.card ≤ n)
    (enough' : s.boundRoots.card ≤ m) (equations : List Equation) :
    solve n s equations = solve m s equations := by
  induction n generalizing m s equations with
  | zero =>
    cases m with
    | zero => rfl
    | succ m => exact solveWith_congr rooted (fun s' _ _ less => by omega) equations
  | succ n ih =>
    cases m with
    | zero => exact solveWith_congr rooted (fun s' _ _ less => by omega) equations
    | succ m =>
      refine solveWith_congr rooted (fun s' rest rooted' less => ?_) equations
      exact ih rooted' (by omega) (by omega) rest

private theorem solveAll_eq_solveWith (rooted : s.Rooted) (equations : List Equation) :
    s.solveAll equations = s.solveWith solveAll equations := by
  have enough := s.card_boundRoots_le
  rw [solveAll, solve_eq_of_enough rooted enough (Nat.le_succ_of_le enough) equations, solve]
  refine solveWith_congr rooted (fun s' rest rooted' less => ?_) equations
  exact solve_eq_of_enough rooted' (by omega) s'.card_boundRoots_le rest

section Cons

variable {x y child root : Handle} {parts rest : List Equation} {conflict : Conflict}

private theorem solveAll_cons_same (rooted : s.Rooted) (met : s.meet x y = .same) :
    s.solveAll ((x, y) :: rest) = s.solveAll rest := by
  rw [solveAll_eq_solveWith rooted, solveWith, met, solveAll_eq_solveWith rooted rest]

private theorem solveAll_cons_join (rooted : s.Rooted) (met : s.meet x y = .join child root) :
    s.solveAll ((x, y) :: rest) =
      .after (.linked child root) ((s.link child root).solveAll rest) := by
  have decided := meets_of_meet rooted met
  rw [solveAll_eq_solveWith rooted, solveWith, met,
    solveAll_eq_solveWith (decided.rooted_join rooted) rest]

private theorem solveAll_cons_merge (rooted : s.Rooted)
    (met : s.meet x y = .merge child root parts) :
    s.solveAll ((x, y) :: rest) =
      .after (.linked child root) ((s.link child root).solveAll (parts ++ rest)) := by
  rw [solveAll_eq_solveWith rooted, solveWith, met]

private theorem solveAll_cons_clash (rooted : s.Rooted) (met : s.meet x y = .clash conflict) :
    s.solveAll ((x, y) :: rest) = .failed s conflict := by
  rw [solveAll_eq_solveWith rooted, solveWith, met]

end Cons

private theorem solveAll_append (rooted : s.Rooted) (equations rest : List Equation) :
    s.solveAll (equations ++ rest) = (s.solveAll equations).andThen (·.solveAll rest) := by
  induction s, rooted, equations using solving_induction with
  | done s rooted =>
    rw [solveAll_eq_solveWith rooted []]
    rfl
  | same s rooted x y others met ih =>
    rw [List.cons_append, solveAll_cons_same rooted met, solveAll_cons_same rooted met, ih]
  | join s rooted x y child root others met linked ih =>
    rw [List.cons_append, solveAll_cons_join rooted met, solveAll_cons_join rooted met, ih,
      Report.andThen_after]
  | merge s rooted x y child root parts others met fewer =>
    -- The equations of the merge stand before the others in both lists.
    have decided := meets_of_meet rooted met
    have counted := decided.card_boundRoots_merge
    have ih := fewer _ (decided.rooted_merge rooted) (parts ++ others) (by omega)
    rw [List.cons_append, solveAll_cons_merge rooted met, solveAll_cons_merge rooted met,
      ← List.append_assoc, ih, Report.andThen_after]
  | clash s rooted x y conflict others met =>
    rw [List.cons_append, solveAll_cons_clash rooted met, solveAll_cons_clash rooted met]
    rfl

private theorem solveAll_cons (rooted : s.Rooted) (x y : Handle) (rest : List Equation) :
    s.solveAll ((x, y) :: rest) = (s.unify x y).andThen (·.solveAll rest) :=
  solveAll_append rooted [(x, y)] rest

end Solving

mutual

/-- The recursion that unifies two handles, with the number of merges it makes in all. -/
inductive Unifies : Store → Handle → Handle → Nat → Report → Prop
  | same {s : Store} {x y : Handle} (met : s.meet x y = .same) : Unifies s x y 0 { store := s }
  | join {s : Store} {x y child root : Handle} (met : s.meet x y = .join child root) :
      Unifies s x y 0 (.after (.linked child root) { store := s.link child root })
  | merge {s : Store} {x y child root : Handle} {parts : List Equation} {n : Nat} {r : Report}
      (met : s.meet x y = .merge child root parts)
      (nested : UnifiesAll (s.link child root) parts n r) :
      Unifies s x y (1 + n) (.after (.linked child root) r)
  | clash {s : Store} {x y : Handle} {conflict : Conflict} (met : s.meet x y = .clash conflict) :
      Unifies s x y 0 (.failed s conflict)

/-- Pair after pair is unified, up to the first conflict. -/
inductive UnifiesAll : Store → List Equation → Nat → Report → Prop
  | done (s : Store) : UnifiesAll s [] 0 { store := s }
  | next {s : Store} {x y : Handle} {rest : List Equation} {n m : Nat} {r r' : Report}
      (first : Unifies s x y n r) (accepted : r.conflict? = none)
      (later : UnifiesAll r.store rest m r') : UnifiesAll s ((x, y) :: rest) (n + m) (r.append r')
  | stop {s : Store} {x y : Handle} {rest : List Equation} {n : Nat} {r : Report}
      (first : Unifies s x y n r) (refused : r.conflict? ≠ none) :
      UnifiesAll s ((x, y) :: rest) n r

end

/-- So many merges lead from one store to another: each takes one bound root away, never the last
one. -/
structure Spends (s : Store) (merges : Nat) (s' : Store) : Prop where
  rooted : s'.Rooted
  count : merges + s'.boundRoots.card = s.boundRoots.card
  nonempty : s.boundRoots.Nonempty → s'.boundRoots.Nonempty

namespace Spends

variable {s' s'' : Store} {n m : Nat}

private theorem refl (rooted : s.Rooted) : s.Spends 0 s := ⟨rooted, Nat.zero_add _, id⟩

private theorem trans (first : s.Spends n s') (second : s'.Spends m s'') :
    s.Spends (n + m) s'' where
  rooted := second.rooted
  count := by
    have counted := first.count
    have counted' := second.count
    omega
  nonempty start := second.nonempty (first.nonempty start)

private theorem join (rooted : s.Rooted) {x y child root : Handle}
    (met : s.meet x y = .join child root) : s.Spends 0 (s.link child root) := by
  have decided := meets_of_meet rooted met
  refine ⟨decided.rooted_join rooted, ?_, ?_⟩
  · rw [decided.boundRoots_join, Nat.zero_add]
  · rw [decided.boundRoots_join]
    exact id

private theorem merge (rooted : s.Rooted) {x y child root : Handle} {parts : List Equation}
    (met : s.meet x y = .merge child root parts) : s.Spends 1 (s.link child root) := by
  have decided := meets_of_meet rooted met
  exact ⟨decided.rooted_merge rooted, decided.card_boundRoots_merge, fun _ =>
    ⟨root, decided.root_mem_boundRoots⟩⟩

private theorem le_pred (spends : s.Spends n s') : n ≤ s.boundRoots.card - 1 := by
  have counted := spends.count
  rcases s.boundRoots.eq_empty_or_nonempty with empty | start
  · rw [empty, Finset.card_empty] at counted
    omega
  · have positive := Finset.card_pos.mpr (spends.nonempty start)
    omega

end Spends

mutual

theorem Unifies.spends : ∀ {s : Store} {x y : Handle} {n : Nat} {r : Report}, s.Unifies x y n r →
    s.Rooted → s.Spends n r.store
  | _, _, _, _, _, .same _, rooted => .refl rooted
  | _, _, _, _, _, .join met, rooted => .join rooted met
  | _, _, _, _, _, .merge met nested, rooted =>
    have linked := Spends.merge rooted met
    linked.trans (nested.spends linked.rooted)
  | _, _, _, _, _, .clash _, rooted => .refl rooted

private theorem UnifiesAll.spends :
    ∀ {s : Store} {equations : List Equation} {n : Nat} {r : Report},
    s.UnifiesAll equations n r → s.Rooted → s.Spends n r.store
  | _, _, _, _, .done _, rooted => .refl rooted
  | _, _, _, _, .next first _ later, rooted =>
    have spent := first.spends rooted
    spent.trans (later.spends spent.rooted)
  | _, _, _, _, .stop first _, rooted => first.spends rooted

end

mutual

/-- What the recursion computes is what solving computes. -/
theorem Unifies.eq_unify : ∀ {s : Store} {x y : Handle} {n : Nat} {r : Report},
    s.Unifies x y n r → s.Rooted → r = s.unify x y
  | s, _, _, _, _, .same met, rooted => by
    rw [unify, solveAll_cons_same rooted met, solveAll_eq_solveWith rooted, solveWith]
  | _, _, _, _, _, .join met, rooted => by
    have linked := (Spends.join rooted met).rooted
    rw [unify, solveAll_cons_join rooted met, solveAll_eq_solveWith linked, solveWith]
  | _, _, _, _, _, .merge met nested, rooted => by
    have linked := (Spends.merge rooted met).rooted
    rw [unify, solveAll_cons_merge rooted met, List.append_nil, ← nested.eq_solveAll linked]
  | _, _, _, _, _, .clash met, rooted => by
    rw [unify, solveAll_cons_clash rooted met]

theorem UnifiesAll.eq_solveAll : ∀ {s : Store} {equations : List Equation} {n : Nat} {r : Report},
    s.UnifiesAll equations n r → s.Rooted → r = s.solveAll equations
  | s, _, _, _, .done _, rooted => by
    rw [solveAll_eq_solveWith rooted, solveWith]
  | s, _, _, _, .next first accepted later, rooted => by
    have rooted' := (first.spends rooted).rooted
    rw [solveAll_cons rooted, ← first.eq_unify rooted, Report.andThen_of_accepted accepted,
      ← later.eq_solveAll rooted']
  | s, _, _, _, .stop first refused, rooted => by
    rw [solveAll_cons rooted, ← first.eq_unify rooted, Report.andThen_of_refused refused]

end

/-- The recursion comes to an end: after a merge there are fewer bound roots, and what is done
before the next pair does not add any. -/
private theorem exists_unifiesAll (rooted : s.Rooted) (equations : List Equation) :
    ∃ n r, s.UnifiesAll equations n r := by
  induction s, rooted, equations using solving_induction with
  | done s rooted => exact ⟨0, _, .done s⟩
  | same s rooted x y rest met ih =>
    obtain ⟨n, r, later⟩ := ih
    exact ⟨_, _, .next (.same met) rfl later⟩
  | join s rooted x y child root rest met linked ih =>
    obtain ⟨n, r, later⟩ := ih
    exact ⟨_, _, .next (.join met) rfl later⟩
  | merge s rooted x y child root parts rest met fewer =>
    have linked := Spends.merge rooted met
    obtain ⟨n, r, nested⟩ := fewer _ linked.rooted parts (by have := linked.count; omega)
    have spent := linked.trans (nested.spends linked.rooted)
    by_cases accepted : r.conflict? = none
    · obtain ⟨m, r', later⟩ := fewer _ spent.rooted rest (by have := spent.count; omega)
      exact ⟨_, _, .next (.merge met nested) accepted later⟩
    · exact ⟨_, _, .stop (.merge met nested) accepted⟩
  | clash s rooted x y conflict rest met =>
    exact ⟨_, _, .stop (.clash met) (Option.some_ne_none conflict)⟩

private theorem exists_unifies (rooted : s.Rooted) (x y : Handle) : ∃ n r, s.Unifies x y n r := by
  cases met : s.meet x y with
  | same => exact ⟨_, _, .same met⟩
  | join child root => exact ⟨_, _, .join met⟩
  | merge child root parts =>
    obtain ⟨n, r, nested⟩ := exists_unifiesAll (Spends.merge rooted met).rooted parts
    exact ⟨_, _, .merge met nested⟩
  | clash conflict => exact ⟨_, _, .clash met⟩

/-- What a call does on a store, with the number of merges it makes in all. -/
inductive Performs (s : Store) : Call → Nat → Report → Prop
  | unify {x y : Handle} {n : Nat} {r : Report} (unifies : s.Unifies x y n r) :
      Performs s (.unify x y) n r
  | cyclic {x : Handle} {t : Term} (occurs : s.occurs (s.find x) t) :
      Performs s (.bind x t) 0 (.failed s (s.infinite x (s.find x) t))
  | fresh {x : Handle} {t : Term} (apart : ¬ s.occurs (s.find x) t) (unbound : s.term? x = none) :
      Performs s (.bind x t) 0
        { store := s.assign (s.find x) t, events := [.bound (s.find x) t.shape] }
  | unmatched {x : Handle} {t u : Term} {reason : Reason} (apart : ¬ s.occurs (s.find x) t)
      (bound : s.term? x = some u) (unpaired : u.pairUp t = .error reason) :
      Performs s (.bind x t) 0 (.failed s (s.mismatch reason x x u t))
  | matched {x : Handle} {t u : Term} {parts : List Equation} {n : Nat} {r : Report}
      (apart : ¬ s.occurs (s.find x) t) (bound : s.term? x = some u)
      (paired : u.pairUp t = .ok parts) (unifies : s.UnifiesAll parts n r) :
      Performs s (.bind x t) n r

/-- The calls that a call makes in turn, each with the store that the calls before it have left. -/
inductive Nests : Store × Call → Store × Call → Prop
  | unify {s : Store} {x y child root a b : Handle} {before after : List Equation} {n : Nat}
      {r : Report} (met : s.meet x y = .merge child root (before ++ (a, b) :: after))
      (earlier : (s.link child root).UnifiesAll before n r) (accepted : r.conflict? = none) :
      Nests (r.store, .unify a b) (s, .unify x y)
  | bind {s : Store} {x a b : Handle} {t u : Term} {before after : List Equation} {n : Nat}
      {r : Report} (apart : ¬ s.occurs (s.find x) t) (bound : s.term? x = some u)
      (paired : u.pairUp t = .ok (before ++ (a, b) :: after)) (earlier : s.UnifiesAll before n r)
      (accepted : r.conflict? = none) : Nests (r.store, .unify a b) (s, .bind x t)

private theorem acc_nests_unify (rooted : s.Rooted) (x y : Handle) : Acc Nests (s, .unify x y) := by
  induction counted : s.boundRoots.card using Nat.strong_induction_on generalizing s x y with
  | _ n ih =>
    refine ⟨_, fun inner nests => ?_⟩
    cases nests with
    | unify met earlier accepted =>
      -- The merge has spent one root; the pairs unified since then can only have spent more.
      have linked := Spends.merge rooted met
      have spent := linked.trans (earlier.spends linked.rooted)
      exact ih _ (by have := spent.count; omega) spent.rooted _ _ rfl

private theorem acc_nests (rooted : s.Rooted) (call : Call) : Acc Nests (s, call) := by
  cases call with
  | unify x y => exact acc_nests_unify rooted x y
  | bind x t =>
    refine ⟨_, fun inner nests => ?_⟩
    cases nests with
    | bind apart bound paired earlier accepted =>
      exact acc_nests_unify (earlier.spends rooted).rooted _ _

theorem exists_performs (rooted : s.Rooted) (call : Call) : ∃ n r, s.Performs call n r := by
  cases call with
  | unify x y =>
    obtain ⟨n, r, unifies⟩ := exists_unifies rooted x y
    exact ⟨n, r, .unify unifies⟩
  | bind x t =>
    by_cases occurs : s.occurs (s.find x) t
    · exact ⟨_, _, .cyclic occurs⟩
    · cases bound : s.term? x with
      | none => exact ⟨_, _, .fresh occurs bound⟩
      | some u =>
        cases paired : u.pairUp t with
        | error reason => exact ⟨_, _, .unmatched occurs bound paired⟩
        | ok parts =>
          obtain ⟨n, r, unifies⟩ := exists_unifiesAll rooted parts
          exact ⟨n, r, .matched occurs bound paired unifies⟩

namespace Performs

variable {call : Call} {n m : Nat} {r r' : Report}

theorem eq_run (performs : s.Performs call n r) (rooted : s.Rooted) : r = call.run s := by
  cases performs with
  | unify unifies => exact unifies.eq_unify rooted
  | cyclic occurs => rw [Call.run, bind, if_pos occurs]
  | fresh apart unbound =>
    rw [term?] at unbound
    rw [Call.run, bind, if_neg apart, unbound]
  | unmatched apart bound unpaired =>
    rw [term?] at bound
    simp only [Call.run, bind, if_neg apart, bound, unpaired]
  | matched apart bound paired unifies =>
    rw [term?] at bound
    simp only [Call.run, bind, if_neg apart, bound, paired]
    exact unifies.eq_solveAll rooted

private theorem le_pred (performs : s.Performs call n r) (rooted : s.Rooted) :
    n ≤ s.boundRoots.card - 1 := by
  cases performs with
  | unify unifies => exact (unifies.spends rooted).le_pred
  | cyclic occurs => exact Nat.zero_le _
  | fresh apart unbound => exact Nat.zero_le _
  | unmatched apart bound unpaired => exact Nat.zero_le _
  | matched apart bound paired unifies => exact (unifies.spends rooted).le_pred

private theorem merges_unique (performs : s.Performs call n r) (performs' : s.Performs call m r')
    (rooted : s.Rooted) : n = m := by
  have sameStore : r.store = r'.store := by
    rw [performs.eq_run rooted, performs'.eq_run rooted]
  cases performs with
  | unify unifies =>
    cases performs' with
    | unify unifies' =>
      have counted := (unifies.spends rooted).count
      have counted' := (unifies'.spends rooted).count
      rw [sameStore] at counted
      omega
  | cyclic occurs =>
    cases performs' with
    | cyclic => rfl
    | fresh apart | unmatched apart | matched apart => exact absurd occurs apart
  | fresh apart unbound =>
    cases performs' with
    | cyclic occurs => exact absurd occurs apart
    | fresh => rfl
    | unmatched _ bound | matched _ bound => simp [unbound] at bound
  | unmatched apart bound unpaired =>
    cases performs' with
    | cyclic occurs => exact absurd occurs apart
    | fresh | unmatched => rfl
    | matched _ bound' paired => simp_all
  | matched apart bound paired unifies =>
    cases performs' with
    | cyclic occurs => exact absurd occurs apart
    | fresh _ unbound => simp [bound] at unbound
    | unmatched _ bound' unpaired => simp_all
    | matched _ _ _ unifies' =>
      have counted := (unifies.spends rooted).count
      have counted' := (unifies'.spends rooted).count
      rw [sameStore] at counted
      omega

end Performs

/-- Every call ends. The calls that it makes in turn are well founded, and the recursion has one
outcome: the report of the call, after fewer merges than there are bound roots. -/
theorem calls_terminate {s : Store} (built : s.Built fun _ => True) (call : Call) :
    Acc Nests (s, call) ∧ ∃ merges ≤ s.boundRoots.card - 1, ∀ n r,
      s.Performs call n r ↔ n = merges ∧ r = call.run s := by
  have rooted := built.formed.rooted
  obtain ⟨merges, report, performs⟩ := exists_performs rooted call
  refine ⟨acc_nests rooted call, merges, performs.le_pred rooted, fun n r => ⟨fun other => ?_, ?_⟩⟩
  · exact ⟨other.merges_unique performs rooted, other.eq_run rooted⟩
  · rintro ⟨rfl, rfl⟩
    rw [← performs.eq_run rooted]
    exact performs

/-- Two pointers to pointers to one class. The pointers are merged and then what they point to,
while the third pair of handles is in one class already. -/
theorem calls_terminate_pointers :
    let s := [(0, Term.pointer 1), (1, .pointer 2), (3, .pointer 4), (4, .pointer 2),
      (2, .int)].foldl (fun s (x, t) => (s.bind x t).store) ({} : Store)
    s.Built (fun _ => True) ∧ s.boundRoots.card = 5 ∧ Acc Nests (s, .unify 3 0) ∧
      s.Performs (.unify 3 0) 2 (s.unify 3 0) ∧ (s.unify 3 0).store.boundRoots.card = 3 := by
  intro s
  have built : s.Built fun _ => True :=
    .bind (.bind (.bind (.bind (.bind .empty 0 trivial) 1 trivial) 3 trivial) 4 trivial) 2 trivial
  have outer : s.meet 3 0 = .merge 3 0 [(4, 1)] := by decide +kernel
  have inner : (s.link 3 0).meet 4 1 = .merge 4 1 [(2, 2)] := by decide +kernel
  have last : ((s.link 3 0).link 4 1).meet 2 2 = .same := by decide +kernel
  obtain ⟨ends, merges, -, performs_iff⟩ := calls_terminate built (.unify 3 0)
  obtain ⟨counted, -⟩ := (performs_iff _ _).mp
    (.unify (.merge outer (.next (.merge inner (.next (.same last) rfl (.done _))) rfl (.done _))))
  exact ⟨built, by decide +kernel, ends, (performs_iff _ _).mpr ⟨counted, rfl⟩, by decide +kernel⟩

end Store

end TypeInference
