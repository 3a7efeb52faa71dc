import TypeInference.Proofs.Unify

/-!
# The variables of a type

The unresolved roots of a handle are found by a walk over the classes inside it, which meets each
class once. The type of the handle repeats a class wherever it stands, so it can be far larger than
the store, but the two list the same variables in the same order: what the walk skips it has listed
before, since no class lies inside itself.
-/

set_option autoImplicit false

namespace TypeInference

section Duplicates

variable {α : Type} [BEq α] [LawfulBEq α]

private theorem nodup_eraseDups (xs : List α) : xs.eraseDups.Nodup := by
  cases xs with
  | nil => exact List.nodup_nil
  | cons x rest =>
    rw [List.eraseDups_cons, List.nodup_cons]
    refine ⟨fun member => ?_, nodup_eraseDups _⟩
    simp [List.mem_eraseDups] at member
termination_by xs.length
decreasing_by
  have := List.length_filter_le (fun y => !y == x) rest
  simp only [List.length_cons]
  omega

private theorem eraseDups_of_nodup {xs : List α} (distinct : xs.Nodup) : xs.eraseDups = xs := by
  induction xs with
  | nil => rfl
  | cons x rest ih =>
    obtain ⟨fresh, others⟩ := List.nodup_cons.mp distinct
    have kept : rest.filter (fun y => !y == x) = rest := by
      apply List.filter_eq_self.mpr
      intro y member
      have differs : y ≠ x := by
        rintro rfl
        exact fresh member
      simpa using differs
    rw [List.eraseDups_cons, kept, ih others]

private theorem eraseDups_append_of_subset {xs ys : List α} (distinct : xs.Nodup)
    (known : ys ⊆ xs) : (xs ++ ys).eraseDups = xs := by
  have none : ys.removeAll xs = [] := by
    apply List.filter_eq_nil_iff.mpr
    intro y member
    simpa using known member
  rw [List.eraseDups_append, eraseDups_of_nodup distinct, none, List.eraseDups_nil, List.append_nil]

private theorem eraseDups_append_eraseDups (xs ys : List α) :
    (xs.eraseDups ++ ys).eraseDups = (xs ++ ys).eraseDups := by
  have same : ys.removeAll xs.eraseDups = ys.removeAll xs := by
    apply List.filter_congr
    intro y _
    simp [List.mem_eraseDups]
  rw [List.eraseDups_append, List.eraseDups_append, eraseDups_of_nodup (nodup_eraseDups xs), same]

end Duplicates

namespace Ty

mutual

/-- The variables of a type from left to right, as often as they stand there. -/
def vars : Ty → List Handle
  | int => []
  | pointer target => target.vars
  | function params result => varsAll params ++ result.vars
  | record fields => varsFields fields
  | var root => [root]

/-- The variables of a list of types. -/
def varsAll : List Ty → List Handle
  | [] => []
  | t :: rest => t.vars ++ varsAll rest

/-- The variables of the types of fields. -/
def varsFields : List (String × Ty) → List Handle
  | [] => []
  | (_, t) :: rest => t.vars ++ varsFields rest

end

private theorem varsAll_eq_flatMap (ts : List Ty) : varsAll ts = ts.flatMap vars := by
  induction ts with
  | nil => rfl
  | cons t rest ih => rw [varsAll, ih, List.flatMap_cons]

private theorem varsFields_eq_flatMap (fields : List (String × Ty)) :
    varsFields fields = fields.flatMap fun field => field.2.vars := by
  induction fields with
  | nil => rfl
  | cons field rest ih => rw [varsFields, ih, List.flatMap_cons]

mutual

private theorem vars_eq_nil_iff : ∀ {t : Ty}, t.vars = [] ↔ t.isResolved
  | int => by simp [vars, isResolved]
  | pointer target => by rw [vars, isResolved, vars_eq_nil_iff]
  | function params result => by
    rw [vars, isResolved, List.append_eq_nil_iff, Bool.and_eq_true, varsAll_eq_nil_iff,
      vars_eq_nil_iff]
  | record fields => by rw [vars, isResolved, varsFields_eq_nil_iff]
  | var root => by simp [vars, isResolved]

private theorem varsAll_eq_nil_iff : ∀ {ts : List Ty}, varsAll ts = [] ↔ isResolvedAll ts
  | [] => by simp [varsAll, isResolvedAll]
  | t :: rest => by
    rw [varsAll, isResolvedAll, List.append_eq_nil_iff, Bool.and_eq_true, vars_eq_nil_iff,
      varsAll_eq_nil_iff]

private theorem varsFields_eq_nil_iff : ∀ {fields : List (String × Ty)},
    varsFields fields = [] ↔ isResolvedFields fields
  | [] => by simp [varsFields, isResolvedFields]
  | (_, t) :: rest => by
    rw [varsFields, isResolvedFields, List.append_eq_nil_iff, Bool.and_eq_true, vars_eq_nil_iff,
      varsFields_eq_nil_iff]

end

private theorem vars_toTy (t : Term) (type : Handle → Ty) :
    (t.toTy type).vars = t.children.flatMap fun c => (type c).vars := by
  cases t with
  | int => rfl
  | pointer target => simp [Term.toTy, Term.children, vars]
  | function params result =>
    simp [Term.toTy, Term.children, vars, varsAll_eq_flatMap, List.flatMap_map]
  | record fields => simp [Term.toTy, Term.children, vars, varsFields_eq_flatMap, List.flatMap_map]

end Ty

namespace Store

variable {s : Store} {v : Visit} {x : Handle} {t : Term}

/-- The variables of a handle's type are the unbound classes within it. -/
theorem mem_vars_resolve (formed : s.Formed) {k : Handle} :
    k ∈ (s.resolve x).vars ↔ s.Within k x ∧ s.term? k = none := by
  induction x using formed.acyclic.inside_out formed.rooted with
  | step x ih =>
    cases bound : s.term? x with
    | none =>
      rw [resolve_of_unbound bound, Ty.vars, List.mem_singleton, within_iff_of_unbound bound]
      constructor
      · rintro rfl
        refine ⟨rfl, ?_⟩
        rw [term?, formed.rooted.find_find]
        exact bound
      · exact And.left
    | some t =>
      rw [resolve_of_bound formed.rooted formed.acyclic bound, Ty.vars_toTy, List.mem_flatMap,
        within_iff formed.rooted bound]
      constructor
      · rintro ⟨c, member, inside⟩
        obtain ⟨within, unbound⟩ := (ih t bound c member).mp inside
        exact ⟨.inr ⟨c, member, within⟩, unbound⟩
      · rintro ⟨rfl | ⟨c, member, within⟩, unbound⟩
        · rw [term?, formed.rooted.find_find] at unbound
          cases bound.symm.trans unbound
        · exact ⟨c, member, (ih t bound c member).mpr ⟨within, unbound⟩⟩

private theorem vars_subset_of_within (formed : s.Formed) {r : Handle} (within : s.Within r x) :
    (s.resolve r).vars ⊆ (s.resolve x).vars := by
  intro k member
  obtain ⟨inside, unbound⟩ := (mem_vars_resolve formed).mp member
  rw [Within, find_of_isRoot (within.isRoot formed.rooted)] at inside
  exact (mem_vars_resolve formed).mpr ⟨inside.trans within, unbound⟩

/-- A visit lists unbound classes once, and only such as it has met. -/
structure Listed (v : Visit) : Prop where
  distinct : v.unbound.toList.Nodup
  seen : ∀ k ∈ v.unbound, k ∈ v.seen

/-- The variables of every class within `x` that the visit has met are listed. -/
def Exhausted (s : Store) (v : Visit) (x : Handle) : Prop :=
  ∀ r ∈ v.seen, s.Within r x → ∀ k ∈ (s.resolve r).vars, k ∈ v.unbound

/-- A walk over the handles `xs` has added their variables, in their order. -/
def ListsVars (s : Store) (before : Visit) (xs : List Handle) (after : Visit) : Prop :=
  after.unbound.toList =
    (before.unbound.toList ++ xs.flatMap fun x => (s.resolve x).vars).eraseDups

private theorem ListsVars.mem_unbound {xs : List Handle} {after : Visit}
    (lists : s.ListsVars v xs after) {k : Handle} :
    k ∈ after.unbound ↔ k ∈ v.unbound ∨ ∃ x ∈ xs, k ∈ (s.resolve x).vars := by
  rw [← Array.mem_toList_iff, show after.unbound.toList = _ from lists, List.mem_eraseDups,
    List.mem_append, List.mem_flatMap, Array.mem_toList_iff]

private theorem ListsVars.append {v' v'' : Visit} {xs ys : List Handle}
    (first : s.ListsVars v xs v') (second : s.ListsVars v' ys v'') :
    s.ListsVars v (xs ++ ys) v'' := by
  rw [ListsVars] at first second ⊢
  rw [second, first, eraseDups_append_eraseDups, List.append_assoc, List.flatMap_append]

private theorem Listed.after {xs : List Handle} {after : Visit} (listed : Listed v)
    (explores : s.Explores v xs after) (lists : s.ListsVars v xs after) : Listed after where
  distinct := by
    rw [show after.unbound.toList = _ from lists]
    exact nodup_eraseDups _
  seen k member := by
    rcases (explores.unbound k).mp member with earlier | ⟨seen, -⟩
    · exact explores.keeps k (listed.seen k earlier)
    · exact seen

private theorem Exhausted.after (formed : s.Formed) {xs : List Handle} {after : Visit} {y : Handle}
    (exhausted : s.Exhausted v y) (explores : s.Explores v xs after)
    (lists : s.ListsVars v xs after) : s.Exhausted after y := by
  intro r seen within k member
  rw [lists.mem_unbound]
  rcases explores.within r seen with earlier | ⟨x, inWalk, inside⟩
  · exact .inl (exhausted r earlier within k member)
  · exact .inr ⟨x, inWalk, vars_subset_of_within formed inside member⟩

private theorem listsVars_foldl (formed : s.Formed) {depth : Nat}
    (each : ∀ v x, (s.unseenRoots v).card ≤ depth → Listed v → s.Exhausted v x →
      s.ListsVars v [x] (s.visit depth v x)) :
    ∀ xs v, (s.unseenRoots v).card ≤ depth → Listed v → (∀ x ∈ xs, s.Exhausted v x) →
      s.ListsVars v xs (xs.foldl (s.visit depth) v) := by
  intro xs
  induction xs with
  | nil =>
    intro v _ listed _
    rw [ListsVars, List.foldl_nil, List.flatMap_nil, List.append_nil,
      eraseDups_of_nodup listed.distinct]
  | cons x rest ih =>
    intro v enough listed exhausted
    obtain ⟨own, others⟩ := List.forall_mem_cons.mp exhausted
    have explores := explores_visit formed.rooted depth v x enough
    have first := each v x enough listed own
    have enough' : (s.unseenRoots (s.visit depth v x)).card ≤ depth :=
      (Finset.card_le_card (unseenRoots_anti explores.keeps)).trans enough
    refine first.append (ih _ enough' (listed.after explores first) fun y member => ?_)
    exact (others y member).after formed explores first

private theorem listsVars_of_seen (formed : s.Formed) (listed : Listed v)
    (exhausted : s.Exhausted v x) (seen : s.find x ∈ v.seen) : s.ListsVars v [x] v := by
  have known : (s.resolve x).vars ⊆ v.unbound.toList := by
    intro k member
    rw [Array.mem_toList_iff]
    refine exhausted _ seen (.self s x) k ?_
    rw [mem_vars_resolve formed, Within, formed.rooted.find_find]
    exact (mem_vars_resolve formed).mp member
  rw [ListsVars, List.flatMap_singleton, eraseDups_append_of_subset listed.distinct known]

private theorem listsVars_of_unbound (listed : Listed v) (unseen : s.find x ∉ v.seen)
    (unbound : s.term? x = none) :
    s.ListsVars v [x]
      { seen := v.seen.insert (s.find x), unbound := v.unbound.push (s.find x) } := by
  have fresh : s.find x ∉ v.unbound.toList := by
    rw [Array.mem_toList_iff]
    exact fun member => unseen (listed.seen _ member)
  have distinct : (v.unbound.toList ++ [s.find x]).Nodup := by
    rw [List.nodup_append]
    refine ⟨listed.distinct, List.nodup_singleton _, fun k member k' own => ?_⟩
    rw [List.mem_singleton.mp own]
    rintro rfl
    exact fresh member
  rw [ListsVars, List.flatMap_singleton, resolve_of_unbound unbound, Ty.vars,
    eraseDups_of_nodup distinct, Array.toList_push]

private theorem exhausted_child (formed : s.Formed) (exhausted : s.Exhausted v x)
    (bound : s.term? x = some t) {c : Handle} (member : c ∈ t.children) :
    s.Exhausted { v with seen := v.seen.insert (s.find x) } c := by
  intro r seen within
  rcases mem_insert_seen.mp seen with rfl | earlier
  · exact absurd within (formed.acyclic.not_within_child (formed.rooted x) bound member)
  · exact exhausted r earlier ((within_iff formed.rooted bound).mpr (.inr ⟨c, member, within⟩))

private theorem listsVars_visit (formed : s.Formed) (depth : Nat) (v : Visit) (x : Handle)
    (enough : (s.unseenRoots v).card ≤ depth) (listed : Listed v) (exhausted : s.Exhausted v x) :
    s.ListsVars v [x] (s.visit depth v x) := by
  induction depth using Nat.strongRecOn generalizing v x with
  | ind depth ih =>
    by_cases seen : s.find x ∈ v.seen
    · rw [visit_of_seen seen]
      exact listsVars_of_seen formed listed exhausted seen
    cases bound : s.term? x with
    | none =>
      rw [visit_of_unbound seen bound]
      exact listsVars_of_unbound listed seen bound
    | some t =>
      obtain ⟨depth, rfl, enough'⟩ :=
        exists_card_unseenRoots_insert_le formed.rooted bound seen enough
      have listed' : Listed { v with seen := v.seen.insert (s.find x) } :=
        ⟨listed.distinct, fun k member => mem_insert_seen.mpr (.inr (listed.seen k member))⟩
      have children := listsVars_foldl formed (ih depth (Nat.lt_succ_self _)) t.children _ enough'
        listed' fun c member => exhausted_child formed exhausted bound member
      rw [visit_of_bound seen bound, ListsVars, List.flatMap_singleton,
        resolve_of_bound formed.rooted formed.acyclic bound, Ty.vars_toTy]
      exact children

/-- The walk for unresolved roots agrees with the type written out in full: it lists the variables
of the type from left to right, each where it stands first. In particular it finds none exactly when
the type is resolved, and none twice. -/
theorem unresolvedRoots_eq_vars {s : Store} (built : s.Built fun _ => True) (x : Handle) :
    s.unresolvedRoots x = (s.resolve x).vars.eraseDups ∧
      (s.unresolvedRoots x = [] ↔ (s.resolve x).isResolved) ∧ (s.unresolvedRoots x).Nodup := by
  have formed := built.formed
  have enough := s.card_unseenRoots_le {}
  have listed : Listed {} := ⟨List.nodup_nil, fun k member => by cases Array.mem_def.mp member⟩
  have exhausted : s.Exhausted {} x := fun r seen => absurd seen Std.TreeSet.not_mem_emptyc
  have lists := listsVars_visit formed s.terms.size {} x enough listed exhausted
  have equal : s.unresolvedRoots x = (s.resolve x).vars.eraseDups := by
    rw [ListsVars, List.flatMap_singleton] at lists
    exact lists
  refine ⟨equal, ?_, equal ▸ nodup_eraseDups _⟩
  rw [equal, ← Ty.vars_eq_nil_iff]
  constructor
  · intro none
    apply List.eq_nil_iff_forall_not_mem.mpr
    intro k member
    rw [← List.mem_eraseDups, none] at member
    cases member
  · intro none
    rw [none]
    rfl

/-- A function that takes a record twice, which holds one unknown class twice and another one in
between. Its type has eight variables from left to right, and the walk meets three classes. -/
theorem unresolvedRoots_eq_vars_shared :
    let s := ([(0, Term.function [1, 2, 1] 3), (1, .record [("g", 4), ("f", 5), ("h", 4)]),
      (2, .pointer 6)].foldl (fun s (x, t) => (s.bind x t).store) ({} : Store)).unify 6 5 |>.store
    s.Built (fun _ => True) ∧ (s.resolve 0).vars = [4, 5, 4, 5, 4, 5, 4, 3] ∧
      s.unresolvedRoots 0 = [4, 5, 3] ∧ ¬ (s.resolve 0).isResolved ∧
      (s.unresolvedRoots 0).Nodup := by
  intro s
  have built : s.Built fun _ => True :=
    .unify (.bind (.bind (.bind .empty 0 trivial) 1 trivial) 2 trivial) 6 5
  obtain ⟨equal, none_iff, distinct⟩ := unresolvedRoots_eq_vars built 0
  have vars : (s.resolve 0).vars = [4, 5, 4, 5, 4, 5, 4, 3] := by decide +kernel
  have roots : s.unresolvedRoots 0 = [4, 5, 3] := by
    rw [equal, vars]
    decide
  refine ⟨built, vars, roots, ?_, distinct⟩
  rw [← none_iff, roots]
  exact List.cons_ne_nil _ _

end Store

end TypeInference
