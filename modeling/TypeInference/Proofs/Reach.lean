import Mathlib.Logic.Relation
import TypeInference.Proofs.Forest
import TypeInference.Store.Reach

/-!
# The graph of classes

An edge leads from a bound root to the root of each handle in its term. The walk from a list of
handles meets exactly the roots that lie within one of them, so the occurs check and the list of
unbound roots answer questions about paths in this graph.
-/

set_option autoImplicit false

namespace TypeInference

namespace Store

variable {s : Store}

/-- The class rooted at `r` is that of a handle in the term bound to the root `x`. -/
def Inside (s : Store) (r x : Handle) : Prop :=
  s.IsRoot x ∧ ∃ t, s.terms[x]? = some t ∧ ∃ c ∈ t.children, s.find c = r

/-- The class rooted at `r` is the class of `x` or lies inside it at some depth. -/
def Within (s : Store) (r x : Handle) : Prop := Relation.ReflTransGen s.Inside r (s.find x)

theorem Within.self (s : Store) (x : Handle) : s.Within (s.find x) x := .refl

private theorem Inside.isRoot (rooted : s.Rooted) {r x : Handle} (inside : s.Inside r x) :
    s.IsRoot r := by
  obtain ⟨-, t, -, c, -, rfl⟩ := inside
  exact rooted c

theorem Within.isRoot (rooted : s.Rooted) {r x : Handle} (within : s.Within r x) :
    s.IsRoot r := by
  rcases Relation.ReflTransGen.cases_head within with equal | ⟨next, inside, -⟩
  · rw [equal]
    exact rooted x
  · exact inside.isRoot rooted

private theorem Within.of_child {r x c : Handle} {t : Term} (isRoot : s.IsRoot x)
    (bound : s.terms[x]? = some t) (member : c ∈ t.children) (within : s.Within r c) :
    s.Within r x := by
  have inside : s.Inside (s.find c) x := ⟨isRoot, t, bound, c, member, rfl⟩
  rw [Within, find_of_isRoot isRoot]
  exact Relation.ReflTransGen.tail within inside

/-- Within a bound handle lie its own class and what lies within the handles of its term. -/
theorem within_iff (rooted : s.Rooted) {r x : Handle} {t : Term} (bound : s.term? x = some t) :
    s.Within r x ↔ r = s.find x ∨ ∃ c ∈ t.children, s.Within r c := by
  constructor
  · intro within
    rcases Relation.ReflTransGen.cases_tail within with same | ⟨k, inner, inside⟩
    · exact .inl same.symm
    · obtain ⟨-, u, bound', c, member, rfl⟩ := inside
      obtain rfl := Option.some.inj (bound.symm.trans bound')
      exact .inr ⟨c, member, inner⟩
  · rintro (rfl | ⟨c, member, within⟩)
    · exact .self s x
    · have inRoot := Within.of_child (rooted x) bound member within
      rwa [Within, rooted.find_find] at inRoot

/-- An unbound class has nothing inside. -/
theorem within_iff_of_unbound {r x : Handle} (unbound : s.term? x = none) :
    s.Within r x ↔ r = s.find x := by
  constructor
  · intro within
    rcases Relation.ReflTransGen.cases_tail within with same | ⟨k, -, -, t, bound, -⟩
    · exact same.symm
    · rw [term?, bound] at unbound
      cases unbound
  · rintro rfl
    exact .self s x

section Visit

variable {v : Visit} {x : Handle} {t : Term}

theorem visit_of_seen (seen : s.find x ∈ v.seen) (depth : Nat) : s.visit depth v x = v := by
  unfold visit
  cases depth <;> exact if_pos (Std.TreeSet.contains_iff_mem.mpr seen)

theorem visit_of_unbound (unseen : s.find x ∉ v.seen) (unbound : s.term? x = none) (depth : Nat) :
    s.visit depth v x =
      { seen := v.seen.insert (s.find x), unbound := v.unbound.push (s.find x) } := by
  rw [← Std.TreeSet.contains_iff_mem] at unseen
  rw [term?] at unbound
  cases depth <;> simp only [visit, if_neg unseen, unbound]

theorem visit_of_bound (unseen : s.find x ∉ v.seen) (bound : s.term? x = some t) (depth : Nat) :
    s.visit (depth + 1) v x =
      t.children.foldl (s.visit depth) { v with seen := v.seen.insert (s.find x) } := by
  rw [← Std.TreeSet.contains_iff_mem] at unseen
  rw [term?] at bound
  rw [visit, if_neg unseen, bound]

end Visit

/-- What a walk over the handles `xs` adds to an earlier visit: their roots, closed under edges, and
nothing from elsewhere. -/
structure Explores (s : Store) (before : Visit) (xs : List Handle) (after : Visit) : Prop where
  keeps : ∀ k ∈ before.seen, k ∈ after.seen
  meets : ∀ x ∈ xs, s.find x ∈ after.seen
  within : ∀ k ∈ after.seen, k ∈ before.seen ∨ ∃ x ∈ xs, s.Within k x
  closed : ∀ k ∈ after.seen, k ∈ before.seen ∨ ∀ r, s.Inside r k → r ∈ after.seen
  unbound : ∀ k, k ∈ after.unbound ↔
    k ∈ before.unbound ∨ k ∈ after.seen ∧ k ∉ before.seen ∧ s.terms[k]? = none

namespace Explores

private theorem nil (v : Visit) : s.Explores v [] v where
  keeps _ seen := seen
  meets _ member := by cases member
  within _ seen := .inl seen
  closed _ seen := .inl seen
  unbound k := ⟨.inl, fun h => h.elim id fun ⟨seen, unseen, _⟩ => absurd seen unseen⟩

private theorem append {v₁ v₂ v₃ : Visit} {xs ys : List Handle} (first : s.Explores v₁ xs v₂)
    (second : s.Explores v₂ ys v₃) : s.Explores v₁ (xs ++ ys) v₃ where
  keeps k seen := second.keeps k (first.keeps k seen)
  meets x member := by
    rcases List.mem_append.mp member with inFirst | inSecond
    · exact second.keeps _ (first.meets x inFirst)
    · exact second.meets x inSecond
  within k seen := by
    rcases second.within k seen with seen | ⟨x, member, within⟩
    · rcases first.within k seen with seen | ⟨x, member, within⟩
      · exact .inl seen
      · exact .inr ⟨x, List.mem_append_left _ member, within⟩
    · exact .inr ⟨x, List.mem_append_right _ member, within⟩
  closed k seen := by
    rcases second.closed k seen with seen | closed
    · rcases first.closed k seen with seen | closed
      · exact .inl seen
      · exact .inr fun r inside => second.keeps r (closed r inside)
    · exact .inr closed
  unbound k := by
    rw [second.unbound, first.unbound]
    have keptFirst := first.keeps k
    have keptSecond := second.keeps k
    tauto

end Explores

/-- The bound roots that a visit has still to meet. -/
def unseenRoots (s : Store) (v : Visit) : Finset Handle :=
  s.boundRoots.filter fun r => !v.seen.contains r

private theorem mem_unseenRoots {v : Visit} {r : Handle} :
    r ∈ s.unseenRoots v ↔ r ∈ s.boundRoots ∧ r ∉ v.seen := by
  rw [unseenRoots, Finset.mem_filter, Bool.not_eq_true', ← Bool.not_eq_true,
    Std.TreeSet.contains_iff_mem]

theorem unseenRoots_anti {v v' : Visit} (keeps : ∀ k ∈ v.seen, k ∈ v'.seen) :
    s.unseenRoots v' ⊆ s.unseenRoots v := by
  intro r unseen
  rw [mem_unseenRoots] at unseen ⊢
  exact ⟨unseen.1, fun seen => unseen.2 (keeps r seen)⟩

theorem mem_insert_seen {seen : Std.TreeSet Handle} {r k : Handle} :
    k ∈ seen.insert r ↔ k = r ∨ k ∈ seen := by
  rw [Std.TreeSet.mem_insert, Std.LawfulEqOrd.compare_eq_iff_eq, eq_comm]

/-- A bound root that is met now is one fewer for the handles below it. -/
theorem exists_card_unseenRoots_insert_le (rooted : s.Rooted) {v : Visit} {x : Handle} {t : Term}
    {depth : Nat} (bound : s.term? x = some t) (unseen : s.find x ∉ v.seen)
    (enough : (s.unseenRoots v).card ≤ depth) : ∃ n, depth = n + 1 ∧
      (s.unseenRoots { v with seen := v.seen.insert (s.find x) }).card ≤ n := by
  have member : s.find x ∈ s.unseenRoots v :=
    mem_unseenRoots.mpr ⟨mem_boundRoots.mpr ⟨rooted x, t, bound⟩, unseen⟩
  have fewer : s.unseenRoots { v with seen := v.seen.insert (s.find x) } ⊂ s.unseenRoots v := by
    refine (Finset.ssubset_iff_of_subset
      (unseenRoots_anti fun k seen => mem_insert_seen.mpr (.inr seen))).mpr ⟨_, member, ?_⟩
    rw [mem_unseenRoots, mem_insert_seen]
    tauto
  have := Finset.card_lt_card fewer
  exact ⟨depth - 1, by omega, by omega⟩

/-- A walk that may go as deep as there are bound roots to meet never stops early, so it explores
all it is given. -/
private theorem explores_foldl {depth : Nat}
    (each : ∀ v x, (s.unseenRoots v).card ≤ depth → s.Explores v [x] (s.visit depth v x)) :
    ∀ xs v, (s.unseenRoots v).card ≤ depth →
      s.Explores v xs (xs.foldl (s.visit depth) v) := by
  intro xs
  induction xs with
  | nil => exact fun v _ => .nil v
  | cons x rest ih =>
    intro v enough
    have first := each v x enough
    have enough' : (s.unseenRoots (s.visit depth v x)).card ≤ depth :=
      (Finset.card_le_card (unseenRoots_anti first.keeps)).trans enough
    exact first.append (ih _ enough')

private theorem explores_of_seen {v : Visit} {x : Handle} (seen : s.find x ∈ v.seen) :
    s.Explores v [x] v where
  keeps _ seen := seen
  meets y member := by
    obtain rfl := List.mem_singleton.mp member
    exact seen
  within _ seen := .inl seen
  closed _ seen := .inl seen
  unbound := (Explores.nil v).unbound

private theorem explores_of_unbound {v : Visit} {x : Handle} (unseen : s.find x ∉ v.seen)
    (unbound : s.terms[s.find x]? = none) :
    s.Explores v [x]
      { seen := v.seen.insert (s.find x), unbound := v.unbound.push (s.find x) } where
  keeps k seen := mem_insert_seen.mpr (.inr seen)
  meets y member := by
    obtain rfl := List.mem_singleton.mp member
    exact mem_insert_seen.mpr (.inl rfl)
  within k seen := by
    rcases mem_insert_seen.mp seen with rfl | seen
    · exact .inr ⟨x, List.mem_singleton_self x, .self s x⟩
    · exact .inl seen
  closed k seen := by
    rcases mem_insert_seen.mp seen with rfl | seen
    · refine .inr fun r inside => ?_
      obtain ⟨-, t, bound, -⟩ := inside
      rw [unbound] at bound
      cases bound
    · exact .inl seen
  unbound k := by
    rw [Array.mem_push, mem_insert_seen]
    constructor
    · rintro (earlier | rfl)
      · exact .inl earlier
      · exact .inr ⟨.inl rfl, unseen, unbound⟩
    · rintro (earlier | ⟨rfl | seen, fresh, -⟩)
      · exact .inl earlier
      · exact .inr rfl
      · exact absurd seen fresh

private theorem explores_of_bound (rooted : s.Rooted) {v after : Visit} {x : Handle} {t : Term}
    (bound : s.terms[s.find x]? = some t)
    (children : s.Explores { v with seen := v.seen.insert (s.find x) } t.children after) :
    s.Explores v [x] after where
  keeps k seen := children.keeps k (mem_insert_seen.mpr (.inr seen))
  meets y member := by
    obtain rfl := List.mem_singleton.mp member
    exact children.keeps _ (mem_insert_seen.mpr (.inl rfl))
  within k seen := by
    rcases children.within k seen with seen | ⟨c, member, within⟩
    · rcases mem_insert_seen.mp seen with rfl | seen
      · exact .inr ⟨x, List.mem_singleton_self x, .self s x⟩
      · exact .inl seen
    · have below := Within.of_child (rooted x) bound member within
      rw [Within, rooted.find_find] at below
      exact .inr ⟨x, List.mem_singleton_self x, below⟩
  closed k seen := by
    rcases children.closed k seen with seen | closed
    · rcases mem_insert_seen.mp seen with rfl | seen
      · refine .inr fun r inside => ?_
        obtain ⟨-, u, bound', c, member, rfl⟩ := inside
        rw [bound] at bound'
        obtain rfl := Option.some.inj bound'
        exact children.meets c member
      · exact .inl seen
    · exact .inr closed
  unbound k := by
    rw [children.unbound, mem_insert_seen]
    constructor
    · rintro (earlier | ⟨seen, fresh, unbound⟩)
      · exact .inl earlier
      · exact .inr ⟨seen, fun seen => fresh (.inr seen), unbound⟩
    · rintro (earlier | ⟨seen, fresh, unbound⟩)
      · exact .inl earlier
      · refine .inr ⟨seen, ?_, unbound⟩
        rintro (rfl | seen)
        · rw [bound] at unbound
          cases unbound
        · exact fresh seen

theorem explores_visit (rooted : s.Rooted) (depth : Nat) (v : Visit) (x : Handle)
    (enough : (s.unseenRoots v).card ≤ depth) : s.Explores v [x] (s.visit depth v x) := by
  induction depth using Nat.strongRecOn generalizing v x with
  | ind depth ih =>
    by_cases seen : s.find x ∈ v.seen
    · rw [visit_of_seen seen]
      exact explores_of_seen seen
    cases bound : s.term? x with
    | none =>
      rw [visit_of_unbound seen bound]
      exact explores_of_unbound seen bound
    | some t =>
      obtain ⟨depth, rfl, fewer⟩ := exists_card_unseenRoots_insert_le rooted bound seen enough
      rw [visit_of_bound seen bound]
      apply explores_of_bound rooted bound
      exact explores_foldl (ih depth (Nat.lt_succ_self _)) _ _ fewer

theorem card_unseenRoots_le (s : Store) (v : Visit) : (s.unseenRoots v).card ≤ s.terms.size :=
  (Finset.card_filter_le _ _).trans s.card_boundRoots_le

private theorem explores_reach (rooted : s.Rooted) (xs : List Handle) :
    s.Explores {} xs (s.reach xs) :=
  explores_foldl (explores_visit rooted _) _ _ (s.card_unseenRoots_le _)

/-- A walk meets exactly the roots that lie within one of its handles. -/
theorem mem_seen_reach (rooted : s.Rooted) {xs : List Handle} {r : Handle} :
    r ∈ (s.reach xs).seen ↔ ∃ x ∈ xs, s.Within r x := by
  have explored := explores_reach rooted xs
  constructor
  · intro seen
    exact (explored.within r seen).resolve_left Std.TreeSet.not_mem_emptyc
  · rintro ⟨x, member, within⟩
    -- From the root of `x`, which the walk meets, each edge leads to a root that it meets too.
    refine Relation.ReflTransGen.head_induction_on within (explored.meets x member) ?_
    intro k next inside _ seen
    exact (explored.closed next seen).resolve_left Std.TreeSet.not_mem_emptyc k inside

/-- The occurs check finds a root exactly when its class lies within a handle of the term. -/
theorem occurs_iff (rooted : s.Rooted) {root : Handle} {t : Term} :
    s.occurs root t ↔ ∃ c ∈ t.children, s.Within root c := by
  rw [occurs, Std.TreeSet.contains_iff_mem, mem_seen_reach rooted]

/-- The unresolved roots of a handle are the unbound classes within it. -/
theorem mem_unresolvedRoots (rooted : s.Rooted) {k x : Handle} :
    k ∈ s.unresolvedRoots x ↔ s.Within k x ∧ s.term? k = none := by
  have seen_iff : k ∈ (s.reach [x]).seen ↔ ∃ y ∈ [x], s.Within k y := mem_seen_reach rooted
  have term_eq : s.Within k x → s.term? k = s.terms[k]? := fun within => by
    rw [term?, find_of_isRoot (within.isRoot rooted)]
  rw [unresolvedRoots, Array.mem_toList_iff, (explores_reach rooted [x]).unbound, seen_iff]
  constructor
  · rintro (earlier | ⟨⟨y, member, within⟩, -, unbound⟩)
    · cases (Array.mem_def.mp earlier)
    · obtain rfl := List.mem_singleton.mp member
      exact ⟨within, (term_eq within).trans unbound⟩
  · rintro ⟨within, unbound⟩
    exact .inr ⟨⟨x, List.mem_singleton_self x, within⟩, Std.TreeSet.not_mem_emptyc,
      (term_eq within).symm.trans unbound⟩

/-! ### The walk as a loop -/

/-- The walk as a loop over a stack of handles that are still to be visited. A bound root puts the
handles of its term on top, so that they are visited from left to right and before the rest. -/
inductive Walks (s : Store) : List Handle → Visit → Visit → Prop
  | done (v : Visit) : Walks s [] v v
  | again {x : Handle} {stack : List Handle} {v v' : Visit} (seen : s.find x ∈ v.seen)
    (rest : Walks s stack v v') : Walks s (x :: stack) v v'
  | unbound {x : Handle} {stack : List Handle} {v v' : Visit} (unseen : s.find x ∉ v.seen)
    (unbound : s.term? x = none) (rest : Walks s stack
      { seen := v.seen.insert (s.find x), unbound := v.unbound.push (s.find x) } v') :
    Walks s (x :: stack) v v'
  | bound {x : Handle} {stack : List Handle} {v v' : Visit} {t : Term}
    (unseen : s.find x ∉ v.seen) (bound : s.term? x = some t)
    (rest : Walks s (t.children ++ stack) { v with seen := v.seen.insert (s.find x) } v') :
    Walks s (x :: stack) v v'

private theorem Walks.unique {stack : List Handle} {v v₁ v₂ : Visit}
    (first : s.Walks stack v v₁) (second : s.Walks stack v v₂) : v₁ = v₂ := by
  induction first with
  | done =>
    cases second
    rfl
  | again seen _ ih =>
    cases second with
    | again _ rest => exact ih rest
    | unbound unseen | bound unseen => exact absurd seen unseen
  | unbound unseen free _ ih =>
    cases second with
    | again seen => exact absurd seen unseen
    | unbound _ _ rest => exact ih rest
    | bound _ bound => cases free.symm.trans bound
  | bound unseen bound _ ih =>
    cases second with
    | again seen => exact absurd seen unseen
    | unbound _ free => cases free.symm.trans bound
    | bound _ bound' rest =>
      obtain rfl := Option.some.inj (bound.symm.trans bound')
      exact ih rest

private theorem walks_foldl (rooted : s.Rooted) {depth : Nat}
    (each : ∀ x stack v v', (s.unseenRoots v).card ≤ depth →
      s.Walks stack (s.visit depth v x) v' → s.Walks (x :: stack) v v') :
    ∀ xs stack v v', (s.unseenRoots v).card ≤ depth →
      s.Walks stack (xs.foldl (s.visit depth) v) v' → s.Walks (xs ++ stack) v v' := by
  intro xs
  induction xs with
  | nil => exact fun _ _ _ _ walks => walks
  | cons x rest ih =>
    intro stack v v' enough walks
    refine each x _ v v' enough (ih stack _ v' ?_ walks)
    have keeps := (explores_visit rooted depth v x enough).keeps
    exact (Finset.card_le_card (unseenRoots_anti keeps)).trans enough

private theorem walks_visit (rooted : s.Rooted) (depth : Nat) (x : Handle) (stack : List Handle)
    (v v' : Visit) (enough : (s.unseenRoots v).card ≤ depth)
    (walks : s.Walks stack (s.visit depth v x) v') : s.Walks (x :: stack) v v' := by
  induction depth using Nat.strongRecOn generalizing x stack v v' with
  | ind depth ih =>
    by_cases seen : s.find x ∈ v.seen
    · rw [visit_of_seen seen] at walks
      exact .again seen walks
    cases bound : s.term? x with
    | none =>
      rw [visit_of_unbound seen bound] at walks
      exact .unbound seen bound walks
    | some t =>
      obtain ⟨depth, rfl, fewer⟩ := exists_card_unseenRoots_insert_le rooted bound seen enough
      rw [visit_of_bound seen bound] at walks
      exact .bound seen bound
        (walks_foldl rooted (ih depth (Nat.lt_succ_self _)) _ _ _ _ fewer walks)

/-- The loop ends, and where the walk does. -/
theorem walks_iff (rooted : s.Rooted) {xs : List Handle} {v : Visit} :
    s.Walks xs {} v ↔ v = s.reach xs := by
  have walks : s.Walks xs {} (s.reach xs) := by
    have whole := walks_foldl rooted (walks_visit rooted _) xs [] {} _ (s.card_unseenRoots_le _)
      (.done (s.reach xs))
    rwa [List.append_nil] at whole
  constructor
  · exact fun ends => ends.unique walks
  · rintro rfl
    exact walks

/-- The occurs check as a loop over a stack. It ends where it meets the root, and the handles of a
term are taken from the right. -/
inductive Searches (s : Store) (root : Handle) : List Handle → Std.TreeSet Handle → Bool → Prop
  | missed (seen : Std.TreeSet Handle) : Searches s root [] seen false
  | found {x : Handle} (stack : List Handle) (seen : Std.TreeSet Handle) (met : s.find x = root) :
    Searches s root (x :: stack) seen true
  | again {x : Handle} {stack : List Handle} {seen : Std.TreeSet Handle} {found : Bool}
    (other : s.find x ≠ root) (met : s.find x ∈ seen) (rest : Searches s root stack seen found) :
    Searches s root (x :: stack) seen found
  | unbound {x : Handle} {stack : List Handle} {seen : Std.TreeSet Handle} {found : Bool}
    (other : s.find x ≠ root) (unseen : s.find x ∉ seen) (unbound : s.term? x = none)
    (rest : Searches s root stack (seen.insert (s.find x)) found) :
    Searches s root (x :: stack) seen found
  | bound {x : Handle} {stack : List Handle} {seen : Std.TreeSet Handle} {found : Bool} {t : Term}
    (other : s.find x ≠ root) (unseen : s.find x ∉ seen) (bound : s.term? x = some t)
    (rest : Searches s root (t.children.reverse ++ stack) (seen.insert (s.find x)) found) :
    Searches s root (x :: stack) seen found

/-- The loop has not met the root, and edges from the roots it has met lead to others that it has
met or to handles on the stack. -/
private structure Searching (s : Store) (root : Handle) (stack : List Handle)
    (seen : Std.TreeSet Handle) : Prop where
  unmet : root ∉ seen
  closed : ∀ k ∈ seen, ∀ r, s.Inside r k → r ∈ seen ∨ ∃ x ∈ stack, s.find x = r

namespace Searching

variable {root x : Handle} {stack : List Handle} {seen : Std.TreeSet Handle}

private theorem exists_within (searching : s.Searching root stack seen) {k : Handle}
    (path : Relation.ReflTransGen s.Inside root k) (met : k ∈ seen) :
    ∃ x ∈ stack, s.Within root x := by
  induction path with
  | refl => exact absurd met searching.unmet
  | tail path inside ih =>
    rcases searching.closed _ met _ inside with met' | ⟨x, member, rfl⟩
    · exact ih met'
    · exact ⟨x, member, path⟩

private theorem again (searching : s.Searching root (x :: stack) seen) (met : s.find x ∈ seen) :
    s.Searching root stack seen where
  unmet := searching.unmet
  closed k member r inside := by
    rcases searching.closed k member r inside with met' | ⟨y, onStack, rfl⟩
    · exact .inl met'
    · rcases List.mem_cons.mp onStack with rfl | onStack
      · exact .inl met
      · exact .inr ⟨y, onStack, rfl⟩

private theorem insert (searching : s.Searching root (x :: stack) seen) (other : s.find x ≠ root)
    {stack' : List Handle} (below : ∀ y ∈ stack, y ∈ stack')
    (inside : ∀ r, s.Inside r (s.find x) → ∃ y ∈ stack', s.find y = r) :
    s.Searching root stack' (seen.insert (s.find x)) where
  unmet met := by
    rcases mem_insert_seen.mp met with same | met
    · exact other same.symm
    · exact searching.unmet met
  closed k member r edge := by
    rcases mem_insert_seen.mp member with rfl | member
    · exact .inr (inside r edge)
    rcases searching.closed k member r edge with met | ⟨y, onStack, rfl⟩
    · exact .inl (mem_insert_seen.mpr (.inr met))
    · rcases List.mem_cons.mp onStack with rfl | onStack
      · exact .inl (mem_insert_seen.mpr (.inl rfl))
      · exact .inr ⟨y, below y onStack, rfl⟩

end Searching

private theorem Searches.found_iff (rooted : s.Rooted) {root : Handle} {stack : List Handle}
    {seen : Std.TreeSet Handle} {found : Bool} (searches : s.Searches root stack seen found)
    (searching : s.Searching root stack seen) : found ↔ ∃ x ∈ stack, s.Within root x := by
  induction searches with
  | missed => simp
  | found stack seen met => simp [← met, Within.self]
  | @again x stack seen found other met _ ih =>
    have rest := searching.again met
    rw [ih rest, List.exists_mem_cons_iff]
    exact ⟨.inr, fun either => either.elim (fun within => rest.exists_within within met) id⟩
  | @unbound x stack seen found other unseen free _ ih =>
    have nothing : ∀ r, s.Inside r (s.find x) → ∃ y ∈ stack, s.find y = r := by
      rintro r ⟨-, t, bound, -⟩
      cases free.symm.trans bound
    rw [ih (searching.insert other (fun _ => id) nothing), List.exists_mem_cons_iff,
      within_iff_of_unbound free]
    exact ⟨.inr, fun either => either.resolve_left (Ne.symm other)⟩
  | @bound x stack seen found t other unseen bound _ ih =>
    have children : ∀ r, s.Inside r (s.find x) →
        ∃ y ∈ t.children.reverse ++ stack, s.find y = r := by
      rintro r ⟨-, u, bound', c, member, rfl⟩
      obtain rfl := Option.some.inj (bound.symm.trans bound')
      exact ⟨c, List.mem_append_left _ (List.mem_reverse.mpr member), rfl⟩
    rw [ih (searching.insert other (fun _ => List.mem_append_right _) children),
      List.exists_mem_cons_iff, within_iff rooted bound]
    simp [Ne.symm other, or_and_right, exists_or]

private theorem exists_searches (rooted : s.Rooted) (root : Handle) (depth : Nat)
    (stack : List Handle) (seen : Std.TreeSet Handle)
    (enough : (s.unseenRoots { seen }).card ≤ depth) :
    ∃ found, s.Searches root stack seen found := by
  induction depth using Nat.strongRecOn generalizing stack seen with
  | ind depth ih =>
    -- A bound root leaves fewer roots to meet, and any other handle a shorter stack.
    induction stack generalizing seen with
    | nil => exact ⟨false, .missed seen⟩
    | cons x rest shorter =>
      by_cases met : s.find x = root
      · exact ⟨true, .found rest seen met⟩
      by_cases again : s.find x ∈ seen
      · exact (shorter seen enough).imp fun _ => .again met again
      cases bound : s.term? x with
      | none =>
        have fewer : (s.unseenRoots { seen := seen.insert (s.find x) }).card ≤ depth :=
          (Finset.card_le_card (unseenRoots_anti fun _ seen => mem_insert_seen.mpr
            (.inr seen))).trans enough
        exact (shorter _ fewer).imp fun _ => .unbound met again bound
      | some t =>
        obtain ⟨n, rfl, fewer⟩ :=
          exists_card_unseenRoots_insert_le rooted (v := { seen }) bound again enough
        exact (ih n (Nat.lt_succ_self n) _ _ fewer).imp fun _ => .bound met again bound

/-- The loop ends, and finds what the occurs check does. -/
theorem searches_iff (rooted : s.Rooted) {root : Handle} {t : Term} {found : Bool} :
    s.Searches root t.children.reverse ∅ found ↔ found = s.occurs root t := by
  have start : s.Searching root t.children.reverse ∅ :=
    ⟨Std.TreeSet.not_mem_emptyc, fun _ member => absurd member Std.TreeSet.not_mem_emptyc⟩
  have answer {found : Bool} (searches : s.Searches root t.children.reverse ∅ found) :
      found = s.occurs root t := by
    rw [Bool.eq_iff_iff, searches.found_iff rooted start, occurs_iff rooted]
    simp only [List.mem_reverse]
  constructor
  · exact answer
  · rintro rfl
    obtain ⟨found, searches⟩ := exists_searches rooted root _ t.children.reverse ∅
      (s.card_unseenRoots_le _)
    exact answer searches ▸ searches

end Store

end TypeInference
