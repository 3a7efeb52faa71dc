import TypeInference.Proofs.Rules

/-!
# Types up to the order of fields

A type is settled when it has no variable and no record in it names a field twice. Settled types
that denote one ground type are compatible, so what the typing rules say of ground types holds of
the settled types behind them.
-/

set_option autoImplicit false

namespace TypeInference

namespace Ty

mutual

/-- No variable is left inside a type, and no record in it names a field twice. -/
def Settled : Ty → Prop
  | int => True
  | pointer target => target.Settled
  | function params result => SettledAll params ∧ result.Settled
  | record fields => (fields.map Prod.fst).Nodup ∧ SettledFields fields
  | var _ => False

/-- All types of a list are settled. -/
def SettledAll : List Ty → Prop
  | [] => True
  | t :: rest => t.Settled ∧ SettledAll rest

/-- All fields of a record have settled types. -/
def SettledFields : List (String × Ty) → Prop
  | [] => True
  | (_, t) :: rest => t.Settled ∧ SettledFields rest

end

private theorem settledAll_iff {ts : List Ty} : SettledAll ts ↔ ∀ t ∈ ts, t.Settled := by
  induction ts with
  | nil => simp [SettledAll]
  | cons t rest ih => rw [SettledAll, ih, List.forall_mem_cons]

private theorem settledFields_iff {fields : List (String × Ty)} :
    SettledFields fields ↔ ∀ field ∈ fields, field.2.Settled := by
  induction fields with
  | nil => simp [SettledFields]
  | cons field rest ih => rw [SettledFields, ih, List.forall_mem_cons]

mutual

theorem Settled.isResolved : ∀ {t : Ty}, t.Settled → t.isResolved
  | int, _ => rfl
  | pointer target, settled => Settled.isResolved (t := target) settled
  | function params result, settled => by
    rw [Ty.isResolved, Bool.and_eq_true]
    exact ⟨SettledAll.isResolved settled.1, Settled.isResolved settled.2⟩
  | record fields, settled => SettledFields.isResolved settled.2
  | var _, settled => settled.elim

private theorem SettledAll.isResolved : ∀ {ts : List Ty}, SettledAll ts → isResolvedAll ts
  | [], _ => rfl
  | t :: rest, settled => by
    rw [isResolvedAll, Bool.and_eq_true]
    exact ⟨Settled.isResolved settled.1, SettledAll.isResolved settled.2⟩

private theorem SettledFields.isResolved : ∀ {fields : List (String × Ty)}, SettledFields fields →
    isResolvedFields fields
  | [], _ => rfl
  | (name, t) :: rest, settled => by
    rw [isResolvedFields, Bool.and_eq_true]
    exact ⟨Settled.isResolved settled.1, SettledFields.isResolved settled.2⟩

end

/-- A term of settled types without repeated names is settled. -/
theorem settled_toTy {t : Term} (distinct : t.DistinctNames) {type : Handle → Ty}
    (inside : ∀ c ∈ t.children, (type c).Settled) : (t.toTy type).Settled := by
  cases t with
  | int => trivial
  | pointer target => exact inside target (List.mem_singleton_self target)
  | function params result =>
    refine ⟨settledAll_iff.mpr fun t member => ?_, inside result (by simp [Term.children])⟩
    obtain ⟨c, inParams, rfl⟩ := List.mem_map.mp member
    exact inside c (by simp [Term.children, inParams])
  | record fields =>
    refine ⟨?_, settledFields_iff.mpr fun field member => ?_⟩
    · rw [List.map_map]
      exact distinct
    · obtain ⟨⟨name, c⟩, inFields, rfl⟩ := List.mem_map.mp member
      exact inside c (List.mem_map.mpr ⟨(name, c), inFields, rfl⟩)

private theorem isResolvedAll_iff {ts : List Ty} : isResolvedAll ts ↔ ∀ t ∈ ts, t.isResolved := by
  induction ts with
  | nil => simp [isResolvedAll]
  | cons t rest ih => rw [isResolvedAll, Bool.and_eq_true, ih, List.forall_mem_cons]

private theorem isResolvedFields_iff {fields : List (String × Ty)} :
    isResolvedFields fields ↔ ∀ field ∈ fields, field.2.isResolved := by
  induction fields with
  | nil => simp [isResolvedFields]
  | cons field rest ih => rw [isResolvedFields, Bool.and_eq_true, ih, List.forall_mem_cons]

/-- A term has a variable inside exactly when one of its handles has. -/
theorem isResolved_toTy {t : Term} {type : Handle → Ty} :
    (t.toTy type).isResolved ↔ ∀ c ∈ t.children, (type c).isResolved := by
  cases t with
  | int => simp [Term.toTy, Term.children, isResolved]
  | pointer target => simp [Term.toTy, Term.children, isResolved]
  | function params result =>
    rw [Term.toTy, isResolved, Bool.and_eq_true, isResolvedAll_iff, Term.children,
      List.forall_mem_append, List.forall_mem_map, List.forall_mem_singleton]
  | record fields =>
    rw [Term.toTy, isResolved, isResolvedFields_iff, Term.children, List.forall_mem_map,
      List.forall_mem_map]

section Compatible

variable (σ : Assignment)

private theorem lookup_ground_of_mem {fields others : List (String × Ty)}
    (distinct : (fields.map Prod.fst).Nodup)
    (equal : Ground.ofFields (groundFields σ fields) = Ground.ofFields (groundFields σ others))
    {field : String × Ty} (member : field ∈ fields) :
    (others.lookup field.1).map (ground σ) = some (field.2.ground σ) := by
  have agree := Ground.ofFields_eq_iff.mp equal field.1
  simp only [groundFields_eq_map, lookup_map_types] at agree
  rw [← agree, lookup_of_mem distinct member]
  rfl

private theorem length_eq_of_ground_eq {fields others : List (String × Ty)}
    (distinct : (fields.map Prod.fst).Nodup) (distinct' : (others.map Prod.fst).Nodup)
    (equal : Ground.ofFields (groundFields σ fields) = Ground.ofFields (groundFields σ others)) :
    fields.length = others.length := by
  apply length_eq_of_lookup_isSome distinct distinct'
  intro name
  have agree := congrArg Option.isSome (Ground.ofFields_eq_iff.mp equal name)
  simpa only [groundFields_eq_map, lookup_map_types, Option.isSome_map] using agree

mutual

/-- Settled types that denote one ground type agree up to the order of fields. -/
theorem compatible_of_ground_eq : ∀ {a b : Ty}, a.Settled → b.Settled →
    a.ground σ = b.ground σ → a.compatible b
  | int, b, _, settled, equal => by
    cases b <;> simp_all [ground, compatible, Settled, Ground.ofFields]
  | pointer a, b, settled, settled', equal => by
    cases b with
    | pointer b =>
      have inner : a.ground σ = b.ground σ := by
        simpa only [ground, Ground.pointer.injEq] using equal
      exact compatible_of_ground_eq (a := a) (b := b) settled settled' inner
    | var root => exact settled'.elim
    | int => cases equal
    | function params result => cases equal
    | record fields => cases equal
  | function params result, b, settled, settled', equal => by
    cases b with
    | function params' result' =>
      obtain ⟨params_eq, result_eq⟩ := Ground.function.inj equal
      have length_eq := congrArg List.length params_eq
      simp only [groundAll_eq_map, List.length_map] at length_eq
      simp only [compatible, length_eq, beq_self_eq_true, Bool.true_and, Bool.and_eq_true]
      exact ⟨compatibleAll_of_ground_eq settled.1 settled'.1 params_eq,
        compatible_of_ground_eq settled.2 settled'.2 result_eq⟩
    | var root => exact settled'.elim
    | int => cases equal
    | pointer target => cases equal
    | record fields => cases equal
  | record fields, b, settled, settled', equal => by
    cases b with
    | record others =>
      have length_eq := length_eq_of_ground_eq σ settled.1 settled'.1 equal
      simp only [compatible, length_eq, beq_self_eq_true, Bool.true_and]
      exact compatibleFields_of_ground_eq settled.2 settled'.2 fun field member =>
        lookup_ground_of_mem σ settled.1 equal member
    | var root => exact settled'.elim
    | int => cases equal
    | pointer target => cases equal
    | function params result => cases equal

private theorem compatibleAll_of_ground_eq : ∀ {as bs : List Ty}, SettledAll as → SettledAll bs →
    groundAll σ as = groundAll σ bs → compatibleAll as bs
  | [], _, _, _, _ => by rw [compatibleAll]; simp
  | a :: as, [], _, _, equal => by cases equal
  | a :: as, b :: bs, settled, settled', equal => by
    obtain ⟨first, others⟩ := List.cons.inj equal
    rw [compatibleAll, Bool.and_eq_true]
    exact ⟨compatible_of_ground_eq settled.1 settled'.1 first,
      compatibleAll_of_ground_eq settled.2 settled'.2 others⟩

private theorem compatibleFields_of_ground_eq : ∀ {fields others : List (String × Ty)},
    SettledFields fields → SettledFields others →
    (∀ field ∈ fields, (others.lookup field.1).map (ground σ) = some (field.2.ground σ)) →
      compatibleFields fields others
  | [], _, _, _, _ => rfl
  | (name, a) :: rest, others, settled, settled', agree => by
    obtain ⟨b, found, equal⟩ := Option.map_eq_some_iff.mp (agree (name, a) List.mem_cons_self)
    have settledOther := settledFields_iff.mp settled' _ (mem_of_lookup found)
    rw [compatibleFields, found, Bool.and_eq_true]
    exact ⟨compatible_of_ground_eq settled.1 settledOther equal.symm,
      compatibleFields_of_ground_eq settled.2 settled' fun field member =>
        agree field (List.mem_cons_of_mem _ member)⟩

end

/-- A settled type stands for the ground type it denotes. -/
def Denotes (g : Ground) (t : Ty) : Prop := t.Settled ∧ t.ground σ = g

variable {σ}

private theorem Denotes.field? {g u : Ground} {t : Ty} {name : String} (denotes : Denotes σ g t)
    (found : g.field? name = some u) : ∃ t', t.field? name = some t' ∧ Denotes σ u t' := by
  obtain ⟨settled, rfl⟩ := denotes
  cases t with
  | record fields =>
    rw [ground, Ground.field?_ofFields, groundFields_eq_map, lookup_map_types] at found
    obtain ⟨t', found', equal⟩ := Option.map_eq_some_iff.mp found
    exact ⟨t', found', settledFields_iff.mp settled.2 _ (mem_of_lookup found'), equal⟩
  | var root => exact settled.elim
  | int => cases found
  | pointer target => cases found
  | function params result => cases found

private theorem Denotes.target {u : Ground} {t : Ty} (denotes : Denotes σ (.pointer u) t) :
    ∃ t', Denotes σ u t' := by
  obtain ⟨settled, equal⟩ := denotes
  cases t with
  | pointer target =>
    rw [ground, Ground.pointer.injEq] at equal
    exact ⟨target, settled, equal⟩
  | var root => exact settled.elim
  | int => cases equal
  | function params result => cases equal
  | record fields => cases equal

private theorem Denotes.result {params : List Ground} {u : Ground} {t : Ty}
    (denotes : Denotes σ (.function params u) t) : ∃ t', Denotes σ u t' := by
  obtain ⟨settled, equal⟩ := denotes
  cases t with
  | function params result =>
    rw [ground, Ground.function.injEq] at equal
    exact ⟨result, settled.2, equal.2⟩
  | var root => exact settled.elim
  | int => cases equal
  | pointer target => cases equal
  | record fields => cases equal

/-- Types up to the order of fields obey every rule that the ground types behind them obey. -/
theorem simulates_ground : Ground.algebra.Simulates Ty.algebra (Denotes σ) where
  same left right equal :=
    compatible_of_ground_eq σ left.1 right.1 (left.2.trans (equal.trans right.2.symm))
  int := ⟨trivial, rfl⟩
  pointer inner := ⟨inner.1, congrArg Ground.pointer inner.2⟩
  function {handles τ τ' a b} params result := by
    refine ⟨⟨settledAll_iff.mpr fun t member => ?_, result.1⟩, ?_⟩
    · obtain ⟨h, inHandles, rfl⟩ := List.mem_map.mp member
      exact (params h inHandles).1
    · have params_eq : (handles.map τ').map (ground σ) = handles.map τ := by
        rw [List.map_map]
        exact List.map_congr_left fun h inHandles => (params h inHandles).2
      show (function (handles.map τ') b).ground σ = Ground.function (handles.map τ) a
      rw [ground, groundAll_eq_map, params_eq, result.2]
  record {fields τ τ'} distinct inside := by
    refine ⟨⟨?_, settledFields_iff.mpr fun field member => ?_⟩, ?_⟩
    · rw [List.map_map]
      exact distinct
    · obtain ⟨⟨name, h⟩, inFields, rfl⟩ := List.mem_map.mp member
      exact (inside (name, h) inFields).1
    · change Ground.ofFields (groundFields σ _) = Ground.ofFields _
      rw [groundFields_eq_map, List.map_map]
      exact congrArg Ground.ofFields (List.map_congr_left fun field inFields =>
        congrArg (Prod.mk field.1) (inside field inFields).2)
  field? denotes found := denotes.field? found
  target denotes same := by
    obtain rfl := same
    exact denotes.target
  result denotes same := by
    obtain rfl := same
    exact denotes.result

end Compatible

end Ty

end TypeInference
