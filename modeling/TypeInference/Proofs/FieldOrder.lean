import TypeInference.Proofs.Symmetry

/-!
# The order of fields

Sorting the fields of every record by name gives each type one form, whatever order its records
list their fields in. Where no record names a field twice, types are compatible exactly when these
forms are equal, so to be compatible is an equivalence there, and the fields of any record inside a
type may be rearranged.
-/

set_option autoImplicit false

namespace TypeInference

private theorem perm_iff_lookup {α : Type} {items others : List (String × α)}
    (distinct : (items.map Prod.fst).Nodup) (distinct' : (others.map Prod.fst).Nodup) :
    items.Perm others ↔
      items.length = others.length ∧ ∀ item ∈ items, others.lookup item.1 = some item.2 := by
  constructor
  · intro perm
    refine ⟨perm.length_eq, fun item member => ?_⟩
    exact lookup_of_mem distinct' (perm.mem_iff.mp member)
  · rintro ⟨sameLength, found⟩
    have subset : items ⊆ others := fun item member => mem_of_lookup (found item member)
    have subperm := List.subperm_of_subset (List.Nodup.of_map _ distinct) subset
    exact subperm.perm_of_length_le sameLength.ge

private theorem sortByName_eq_iff {α : Type} {items others : List (String × α)}
    (distinct : (items.map Prod.fst).Nodup) :
    sortByName items = sortByName others ↔ items.Perm others := by
  constructor
  · intro equal
    have same := (sortByName_perm items).symm
    rw [equal] at same
    exact same.trans (sortByName_perm others)
  · intro perm
    exact sortByName_eq_of_perm perm distinct

namespace Ty

mutual

/-- No record names a field twice, at any depth. -/
def DistinctNames : Ty → Prop
  | int => True
  | pointer target => target.DistinctNames
  | function params result => DistinctNamesAll params ∧ result.DistinctNames
  | record fields => (fields.map Prod.fst).Nodup ∧ DistinctNamesFields fields
  | var _ => True

/-- No record in any type of a list names a field twice. -/
def DistinctNamesAll : List Ty → Prop
  | [] => True
  | t :: rest => t.DistinctNames ∧ DistinctNamesAll rest

/-- No record in the type of any field names a field twice. -/
def DistinctNamesFields : List (String × Ty) → Prop
  | [] => True
  | (_, t) :: rest => t.DistinctNames ∧ DistinctNamesFields rest

end

mutual

/-- The type with the fields of every record in the order of their names. -/
def sorted : Ty → Ty
  | int => int
  | pointer target => pointer target.sorted
  | function params result => function (sortedAll params) result.sorted
  | record fields => record (sortByName (sortedFields fields))
  | var root => var root

/-- The types of a list with the fields of every record in the order of their names. -/
def sortedAll : List Ty → List Ty
  | [] => []
  | t :: rest => t.sorted :: sortedAll rest

/-- Fields, in the order they have, with sorted types. -/
def sortedFields : List (String × Ty) → List (String × Ty)
  | [] => []
  | (name, t) :: rest => (name, t.sorted) :: sortedFields rest

end

private theorem distinctNamesAll_iff {ts : List Ty} :
    DistinctNamesAll ts ↔ ∀ t ∈ ts, t.DistinctNames := by
  induction ts with
  | nil => simp [DistinctNamesAll]
  | cons t rest ih => rw [DistinctNamesAll, ih, List.forall_mem_cons]

private theorem distinctNamesFields_iff {fields : List (String × Ty)} :
    DistinctNamesFields fields ↔ ∀ field ∈ fields, field.2.DistinctNames := by
  induction fields with
  | nil => simp [DistinctNamesFields]
  | cons field rest ih => rw [DistinctNamesFields, ih, List.forall_mem_cons]

private theorem sortedAll_eq_map (ts : List Ty) : sortedAll ts = ts.map sorted := by
  induction ts with
  | nil => rfl
  | cons t rest ih => rw [sortedAll, ih, List.map_cons]

private theorem sortedFields_eq_map (fields : List (String × Ty)) :
    sortedFields fields = fields.map fun (name, t) => (name, t.sorted) := by
  induction fields with
  | nil => rfl
  | cons field rest ih => rw [sortedFields, ih, List.map_cons]

private theorem names_sortedFields (fields : List (String × Ty)) :
    (sortedFields fields).map Prod.fst = fields.map Prod.fst := by
  rw [sortedFields_eq_map, List.map_map]
  rfl

private theorem sorted_record_eq_iff {fields others : List (String × Ty)}
    (distinct : (fields.map Prod.fst).Nodup) (distinct' : (others.map Prod.fst).Nodup) :
    (record fields).sorted = (record others).sorted ↔ fields.length = others.length ∧
      ∀ field ∈ fields, (others.lookup field.1).map sorted = some field.2.sorted := by
  rw [← names_sortedFields] at distinct distinct'
  rw [sorted, sorted, record.injEq, sortByName_eq_iff distinct, perm_iff_lookup distinct distinct']
  simp only [sortedFields_eq_map, List.length_map, List.forall_mem_map, lookup_map_types]

mutual

/-- Types without repeated names are compatible exactly when their sorted forms are equal. -/
theorem compatible_iff : ∀ {a b : Ty}, a.DistinctNames → b.DistinctNames →
    (a.compatible b ↔ a.sorted = b.sorted)
  | int, b, _, _ => by cases b <;> simp [compatible, sorted]
  | pointer a, b, distinct, distinct' => by
    cases b with
    | pointer b =>
      rw [compatible, compatible_iff (a := a) (b := b) distinct distinct', sorted, sorted,
        pointer.injEq]
    | int | function _ _ | record _ | var _ => simp [compatible, sorted]
  | function params result, b, distinct, distinct' => by
    cases b with
    | function params' result' =>
      rw [compatible, Bool.and_eq_true, Bool.and_eq_true, beq_iff_eq,
        compatibleAll_iff distinct.1 distinct'.1, compatible_iff distinct.2 distinct'.2, sorted,
        sorted, function.injEq]
    | int | pointer _ | record _ | var _ => simp [compatible, sorted]
  | record fields, b, distinct, distinct' => by
    cases b with
    | record others =>
      rw [compatible, Bool.and_eq_true, beq_iff_eq, compatibleFields_iff distinct.2 distinct'.2,
        sorted_record_eq_iff distinct.1 distinct'.1]
    | int | pointer _ | function _ _ | var _ => simp [compatible, sorted]
  | var root, b, _, _ => by cases b <;> simp [compatible, sorted]

private theorem compatibleAll_iff : ∀ {as bs : List Ty}, DistinctNamesAll as → DistinctNamesAll bs →
    (as.length = bs.length ∧ compatibleAll as bs ↔ sortedAll as = sortedAll bs)
  | [], [], _, _ => by simp [compatibleAll]
  | [], b :: bs, _, _ => by simp [sortedAll]
  | a :: as, [], _, _ => by simp [sortedAll]
  | a :: as, b :: bs, distinct, distinct' => by
    rw [sortedAll, sortedAll, List.cons.injEq, ← compatible_iff distinct.1 distinct'.1,
      ← compatibleAll_iff distinct.2 distinct'.2, compatibleAll, Bool.and_eq_true,
      List.length_cons, List.length_cons, Nat.add_right_cancel_iff]
    exact and_left_comm

private theorem compatibleFields_iff : ∀ {fields others : List (String × Ty)},
    DistinctNamesFields fields → DistinctNamesFields others →
    (compatibleFields fields others ↔
      ∀ field ∈ fields, (others.lookup field.1).map sorted = some field.2.sorted)
  | [], _, _, _ => by simp [compatibleFields]
  | (name, a) :: rest, others, distinct, distinct' => by
    rw [compatibleFields, Bool.and_eq_true, List.forall_mem_cons,
      compatibleFields_iff distinct.2 distinct']
    refine and_congr_left fun _ => ?_
    cases found : others.lookup name with
    | none => simp
    | some b =>
      have distinctOther := distinctNamesFields_iff.mp distinct' _ (mem_of_lookup found)
      rw [compatible_iff distinct.1 distinctOther, Option.map_some, Option.some.injEq]
      exact eq_comm

end

/-- One record, somewhere inside a type, lists its fields in another order. -/
inductive Rearranges : Ty → Ty → Prop
  | here {fields others : List (String × Ty)} (perm : fields.Perm others) :
      Rearranges (record fields) (record others)
  | target {a b : Ty} (inner : Rearranges a b) : Rearranges (pointer a) (pointer b)
  | param {a b : Ty} (before after : List Ty) (result : Ty) (inner : Rearranges a b) :
      Rearranges (function (before ++ a :: after) result) (function (before ++ b :: after) result)
  | result {a b : Ty} (params : List Ty) (inner : Rearranges a b) :
      Rearranges (function params a) (function params b)
  | field {a b : Ty} (before after : List (String × Ty)) (name : String)
      (inner : Rearranges a b) :
      Rearranges (record (before ++ (name, a) :: after)) (record (before ++ (name, b) :: after))

private theorem Rearranges.distinctNames {a b : Ty} (step : Rearranges a b)
    (distinct : a.DistinctNames) : b.DistinctNames := by
  induction step with
  | here perm =>
    obtain ⟨names, inside⟩ := distinct
    refine ⟨(perm.map Prod.fst).nodup names, distinctNamesFields_iff.mpr fun field member => ?_⟩
    exact distinctNamesFields_iff.mp inside field (perm.mem_iff.mpr member)
  | target inner ih => exact ih distinct
  | param before after result inner ih =>
    simp only [DistinctNames, distinctNamesAll_iff, List.forall_mem_append,
      List.forall_mem_cons] at distinct ⊢
    obtain ⟨⟨front, own, back⟩, results⟩ := distinct
    exact ⟨⟨front, ih own, back⟩, results⟩
  | result params inner ih => exact ⟨distinct.1, ih distinct.2⟩
  | field before after name inner ih =>
    simp only [DistinctNames, distinctNamesFields_iff, List.forall_mem_append,
      List.forall_mem_cons, List.map_append, List.map_cons] at distinct ⊢
    obtain ⟨names, front, own, back⟩ := distinct
    exact ⟨names, front, ih own, back⟩

private theorem Rearranges.sorted_eq {a b : Ty} (step : Rearranges a b)
    (distinct : a.DistinctNames) : a.sorted = b.sorted := by
  induction step with
  | here perm =>
    obtain ⟨names, -⟩ := distinct
    rw [← names_sortedFields] at names
    rw [sorted, sorted, record.injEq, sortByName_eq_iff names, sortedFields_eq_map,
      sortedFields_eq_map]
    exact perm.map _
  | target inner ih => rw [sorted, sorted, ih distinct]
  | param before after result inner ih =>
    simp only [DistinctNames, distinctNamesAll_iff, List.forall_mem_append,
      List.forall_mem_cons] at distinct
    obtain ⟨⟨-, own, -⟩, -⟩ := distinct
    simp only [sorted, sortedAll_eq_map, List.map_append, List.map_cons, ih own]
  | result params inner ih => rw [sorted, sorted, ih distinct.2]
  | field before after name inner ih =>
    simp only [DistinctNames, distinctNamesFields_iff, List.forall_mem_append,
      List.forall_mem_cons] at distinct
    obtain ⟨-, -, own, -⟩ := distinct
    simp only [sorted, sortedFields_eq_map, List.map_append, List.map_cons, ih own]

private theorem sorted_eq_of_rearranged {a b : Ty} (distinct : a.DistinctNames)
    (steps : Relation.ReflTransGen Rearranges a b) : b.DistinctNames ∧ a.sorted = b.sorted := by
  induction steps with
  | refl => exact ⟨distinct, rfl⟩
  | tail _ step ih =>
    obtain ⟨distinct', equal⟩ := ih
    exact ⟨step.distinctNames distinct', equal.trans (step.sorted_eq distinct')⟩

/-- Among types whose records name no field twice, to be compatible is to be equal up to the order
of fields: the two have one sorted form. It is therefore reflexive, symmetric and transitive, and
records may be rearranged anywhere inside either side. -/
theorem compatible_iff_sorted_eq :
    (∀ a b : Ty, a.DistinctNames → b.DistinctNames → (a.compatible b ↔ a.sorted = b.sorted)) ∧
    (∀ a : Ty, a.DistinctNames → a.compatible a) ∧
    (∀ a b : Ty, a.DistinctNames → b.DistinctNames → a.compatible b → b.compatible a) ∧
    (∀ a b c : Ty, a.DistinctNames → b.DistinctNames → c.DistinctNames →
      a.compatible b → b.compatible c → a.compatible c) ∧
    ∀ a a' b b' : Ty, a.DistinctNames → b.DistinctNames →
      Relation.ReflTransGen Rearranges a a' → Relation.ReflTransGen Rearranges b b' →
        (a'.compatible b' ↔ a.compatible b) := by
  refine ⟨fun a b => compatible_iff, ?_, ?_, ?_, ?_⟩
  · intro a distinct
    exact (compatible_iff distinct distinct).mpr rfl
  · intro a b distinct distinct' same
    exact (compatible_iff distinct' distinct).mpr ((compatible_iff distinct distinct').mp same).symm
  · intro a b c distinct distinct' distinct'' first second
    have equal := (compatible_iff distinct distinct').mp first
    have equal' := (compatible_iff distinct' distinct'').mp second
    exact (compatible_iff distinct distinct'').mpr (equal.trans equal')
  · intro a a' b b' distinct distinct' left right
    obtain ⟨later, equal⟩ := sorted_eq_of_rearranged distinct left
    obtain ⟨later', equal'⟩ := sorted_eq_of_rearranged distinct' right
    rw [compatible_iff later later', compatible_iff distinct distinct', equal, equal']

/-- Functions from a record that holds another record, both listed in different orders. The second
arises from the first by rearranging the inner record, then the outer one. A third type, with
another variable, is compatible with neither. -/
theorem compatible_iff_sorted_eq_nested :
    let inner : Ty := .record [("y", .int), ("x", .var 4)]
    let inner' : Ty := .record [("x", .var 4), ("y", .int)]
    let a : Ty := .function [.record [("g", .pointer inner), ("f", .var 2)]] .int
    let b : Ty := .function [.record [("f", .var 2), ("g", .pointer inner')]] .int
    let c : Ty := .function [.record [("f", .var 3), ("g", .pointer inner')]] .int
    (a.DistinctNames ∧ b.DistinctNames ∧ c.DistinctNames) ∧ a ≠ b ∧
      Relation.ReflTransGen Rearranges a b ∧ a.sorted = b.sorted ∧ a.compatible b ∧
      b.compatible a ∧ a.compatible a ∧ ¬ a.compatible c ∧ ¬ b.compatible c := by
  intro inner inner' a b c
  have distinctA : a.DistinctNames := by
    simp [a, inner, DistinctNames, DistinctNamesAll, DistinctNamesFields]
  have distinctB : b.DistinctNames := by
    simp [b, inner', DistinctNames, DistinctNamesAll, DistinctNamesFields]
  have distinctC : c.DistinctNames := by
    simp [c, inner', DistinctNames, DistinctNamesAll, DistinctNamesFields]
  have innerStep : Rearranges inner inner' := .here (.swap ..)
  have first : Rearranges a (.function [.record [("g", .pointer inner'), ("f", .var 2)]] .int) :=
    .param [] [] .int (.field [] [("f", .var 2)] "g" (.target innerStep))
  have second : Rearranges (.function [.record [("g", .pointer inner'), ("f", .var 2)]] .int) b :=
    .param [] [] .int (.here (.swap ..))
  have steps : Relation.ReflTransGen Rearranges a b := .tail (.single first) second
  obtain ⟨exact_iff, refl, symm, trans, rearranged⟩ := compatible_iff_sorted_eq
  have same : a.compatible b := (rearranged a a a b distinctA distinctA .refl steps).mpr
    (refl a distinctA)
  have apart : ¬ a.compatible c := by
    rw [exact_iff a c distinctA distinctC]
    decide +kernel
  refine ⟨⟨distinctA, distinctB, distinctC⟩, by decide +kernel, steps,
    (exact_iff a b distinctA distinctB).mp same, same, symm a b distinctA distinctB same,
    refl a distinctA, apart, fun joined => apart ?_⟩
  exact trans a b c distinctA distinctB distinctC same joined

end Ty

end TypeInference
