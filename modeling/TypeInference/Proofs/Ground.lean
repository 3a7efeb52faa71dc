import Mathlib
import TypeInference.Pairing
import TypeInference.Store.Expand

/-!
# Ground types

A ground type is finite and has no variables, and its records are finite maps from names. An
assignment gives every handle a ground type; through it a term or a type with variables denotes a
ground type as well. Two terms denote one ground type exactly when the equations that pair them
hold.
-/

set_option autoImplicit false

namespace TypeInference

/-- Finite types without variables; a record is a finite map from names to types. -/
inductive Ground
  | int
  | pointer (target : Ground)
  | function (params : List Ground) (result : Ground)
  | record (names : Finset String) (type : {name // name ∈ names} → Ground)
deriving Inhabited

/-- A ground type for every handle. -/
abbrev Assignment := Handle → Ground

namespace Ground

/-- The type of a record's field; a type that is no record has no field. -/
def field? : Ground → String → Option Ground
  | record names type, name => if h : name ∈ names then some (type ⟨name, h⟩) else none
  | _, _ => none

/-- The record of the given fields, where the first field of a name counts. -/
def ofFields (fields : List (String × Ground)) : Ground :=
  record (fields.map Prod.fst).toFinset fun name => (fields.lookup name.val).getD int

mutual

/-- The number of constructors below each other. -/
def height : Ground → Nat
  | int => 0
  | pointer target => target.height + 1
  | function params result => max (heightAll params) result.height + 1
  | record names type => (names.attach.sup fun name => (type name).height) + 1

/-- The greatest height in a list. -/
def heightAll : List Ground → Nat
  | [] => 0
  | g :: rest => max g.height (heightAll rest)

end

private theorem height_le_heightAll {g : Ground} {gs : List Ground} (member : g ∈ gs) :
    g.height ≤ heightAll gs := by
  induction gs with
  | nil => cases member
  | cons first rest ih =>
    rw [heightAll]
    rcases List.mem_cons.mp member with rfl | member
    · exact le_max_left _ _
    · exact (ih member).trans (le_max_right _ _)

/-- A field lies strictly inside its record. -/
theorem height_lt_of_field? {g t : Ground} {name : String} (has : g.field? name = some t) :
    t.height < g.height := by
  cases g with
  | record names type =>
    simp only [field?] at has
    split at has
    · rename_i member
      cases has
      rw [height]
      exact Nat.lt_succ_of_le
        (Finset.le_sup (f := fun name => (type name).height)
          (Finset.mem_attach names ⟨name, member⟩))
    · cases has
  | int => cases has
  | pointer target => cases has
  | function params result => cases has

private theorem isSome_field?_record (names : Finset String)
    (type : {name // name ∈ names} → Ground) (name : String) :
    ((record names type).field? name).isSome ↔ name ∈ names := by
  simp only [field?]
  split <;> simp_all

private theorem record_eq_iff {names names' : Finset String}
    {type : {name // name ∈ names} → Ground} {type' : {name // name ∈ names'} → Ground} :
    record names type = record names' type' ↔
      ∀ name, (record names type).field? name = (record names' type').field? name := by
  constructor
  · intro equal name
    rw [equal]
  · intro agree
    have sameNames : names = names' := by
      ext name
      rw [← isSome_field?_record names type, agree, isSome_field?_record]
    subst sameNames
    have sameTypes : type = type' := by
      funext ⟨name, member⟩
      simpa [field?, member] using agree name
    rw [sameTypes]

@[simp]
theorem field?_ofFields (fields : List (String × Ground)) (name : String) :
    (ofFields fields).field? name = fields.lookup name := by
  simp only [ofFields, field?]
  cases found : fields.lookup name with
  | none =>
    have absent : name ∉ (fields.map Prod.fst).toFinset := by
      rw [List.lookup_eq_none_iff] at found
      intro member
      obtain ⟨field, inside, rfl⟩ := List.mem_map.mp (List.mem_toFinset.mp member)
      simpa using found field inside
    rw [dif_neg absent]
  | some type =>
    have present : name ∈ (fields.map Prod.fst).toFinset := by
      obtain ⟨front, back, rfl, -⟩ := List.lookup_eq_some_iff.mp found
      simp
    rw [dif_pos present]
    rfl

theorem ofFields_eq_iff {fields others : List (String × Ground)} :
    ofFields fields = ofFields others ↔ ∀ name, fields.lookup name = others.lookup name := by
  simp only [← field?_ofFields]
  exact record_eq_iff

end Ground

section Lookup

variable {α β : Type}

theorem mem_of_lookup {fields : List (String × α)} {name : String} {a : α}
    (found : fields.lookup name = some a) : (name, a) ∈ fields := by
  obtain ⟨front, back, rfl, -⟩ := List.lookup_eq_some_iff.mp found
  simp

/-- Where names are distinct, every field is the first of its name. -/
theorem lookup_of_mem {fields : List (String × α)} (distinct : (fields.map Prod.fst).Nodup)
    {name : String} {a : α} (member : (name, a) ∈ fields) : fields.lookup name = some a := by
  induction fields with
  | nil => cases member
  | cons first rest ih =>
    obtain ⟨fresh, restDistinct⟩ := List.nodup_cons.mp distinct
    rcases List.mem_cons.mp member with rfl | inRest
    · simp
    · have differs : name ≠ first.1 := by
        rintro rfl
        exact fresh (List.mem_map.mpr ⟨_, inRest, rfl⟩)
      rw [List.lookup_cons, beq_false_of_ne differs]
      exact ih restDistinct inRest

private theorem mem_names_of_lookup {fields : List (String × α)} {name : String} {a : α}
    (found : fields.lookup name = some a) : name ∈ fields.map Prod.fst :=
  List.mem_map.mpr ⟨_, mem_of_lookup found, rfl⟩

theorem exists_lookup_of_mem_names {fields : List (String × α)} {name : String}
    (member : name ∈ fields.map Prod.fst) : ∃ a, fields.lookup name = some a := by
  cases found : fields.lookup name with
  | some a => exact ⟨a, rfl⟩
  | none =>
    obtain ⟨field, inside, rfl⟩ := List.mem_map.mp member
    simpa using List.lookup_eq_none_iff.mp found field inside

theorem lookup_map_types (f : α → β) (fields : List (String × α)) (name : String) :
    (fields.map fun (n, a) => (n, f a)).lookup name = (fields.lookup name).map f := by
  induction fields with
  | nil => rfl
  | cons first rest ih =>
    rw [List.map_cons, List.lookup_cons, List.lookup_cons, ih]
    cases name == first.1 <;> rfl

/-- Lists of distinct names are equally long when one look-up succeeds exactly where the other
does. -/
theorem length_eq_of_lookup_isSome {fields : List (String × α)} {others : List (String × β)}
    (distinct : (fields.map Prod.fst).Nodup) (distinct' : (others.map Prod.fst).Nodup)
    (agree : ∀ name, (fields.lookup name).isSome = (others.lookup name).isSome) :
    fields.length = others.length := by
  have sameNames : (fields.map Prod.fst).Perm (others.map Prod.fst) := by
    rw [List.perm_ext_iff_of_nodup distinct distinct']
    intro name
    have isSome := agree name
    constructor
    · intro member
      obtain ⟨a, found⟩ := exists_lookup_of_mem_names member
      rw [found, Option.isSome_some, eq_comm, Option.isSome_iff_exists] at isSome
      obtain ⟨b, found'⟩ := isSome
      exact mem_names_of_lookup found'
    · intro member
      obtain ⟨b, found⟩ := exists_lookup_of_mem_names member
      rw [found, Option.isSome_some, Option.isSome_iff_exists] at isSome
      obtain ⟨a, found'⟩ := isSome
      exact mem_names_of_lookup found'
  simpa using sameNames.length_eq

end Lookup

namespace Term

/-- No field of a record is named twice. -/
def DistinctNames : Term → Prop
  | record fields => (fields.map Prod.fst).Nodup
  | _ => True

instance : DecidablePred DistinctNames
  | record fields => inferInstanceAs (Decidable (fields.map Prod.fst).Nodup)
  | int | pointer _ | function .. => .isTrue trivial

/-- The ground type of a term under an assignment of its handles. -/
def ground (σ : Assignment) : Term → Ground
  | int => .int
  | pointer target => .pointer (σ target)
  | function params result => .function (params.map σ) (σ result)
  | record fields => .ofFields (fields.map fun (name, h) => (name, σ h))

/-- A term reads an assignment at its own handles only. -/
theorem ground_congr {σ σ' : Assignment} {t : Term} (agree : ∀ c ∈ t.children, σ c = σ' c) :
    t.ground σ = t.ground σ' := by
  cases t with
  | int => rfl
  | pointer target => rw [ground, ground, agree target (by simp [children])]
  | function params result =>
    have params_eq : params.map σ = params.map σ' :=
      List.map_congr_left fun c member => agree c (by simp [children, member])
    rw [ground, ground, params_eq, agree result (by simp [children])]
  | record fields =>
    rw [ground, ground]
    exact congrArg Ground.ofFields (List.map_congr_left fun field member =>
      congrArg (Prod.mk field.1) (agree field.2 (List.mem_map_of_mem member)))

private theorem field?_ground_record (σ : Assignment) (fields : List (String × Handle))
    (name : String) : ((record fields).ground σ).field? name = (fields.lookup name).map σ := by
  rw [ground, Ground.field?_ofFields, lookup_map_types]

/-- The fields of what a term denotes are what its own fields denote. -/
theorem field?_ground (σ : Assignment) (t : Term) (name : String) :
    (t.ground σ).field? name = (t.field? name).map σ := by
  cases t with
  | record fields => exact field?_ground_record σ fields name
  | int | pointer _ | function _ _ => rfl

private theorem ground_record_eq_iff {σ σ' : Assignment} {fields others : List (String × Handle)} :
    (record fields).ground σ = (record others).ground σ' ↔
      ∀ name, (fields.lookup name).map σ = (others.lookup name).map σ' := by
  simp only [ground, Ground.ofFields_eq_iff, lookup_map_types]

/-- The types inside a term can be read off the ground type of the whole. -/
theorem eq_of_ground_eq {σ σ' : Assignment} {t : Term} (distinct : t.DistinctNames)
    (equal : t.ground σ = t.ground σ') {c : Handle} (member : c ∈ t.children) : σ c = σ' c := by
  cases t with
  | int => cases member
  | pointer target =>
    obtain rfl := List.mem_singleton.mp member
    exact Ground.pointer.inj equal
  | function params result =>
    obtain ⟨params_eq, result_eq⟩ := Ground.function.inj equal
    rcases List.mem_append.mp member with inParams | isResult
    · exact List.map_inj_left.mp params_eq c inParams
    · obtain rfl := List.mem_singleton.mp isResult
      exact result_eq
  | record fields =>
    obtain ⟨⟨name, h⟩, inFields, rfl⟩ := List.mem_map.mp member
    have same := ground_record_eq_iff.mp equal name
    rw [lookup_of_mem distinct inFields] at same
    exact Option.some.inj same

/-- What a handle inside a term denotes lies strictly inside what the term denotes. -/
theorem height_lt_height_ground (σ : Assignment) {t : Term} (distinct : t.DistinctNames)
    {c : Handle} (member : c ∈ t.children) : (σ c).height < (t.ground σ).height := by
  cases t with
  | int => cases member
  | pointer target =>
    obtain rfl := List.mem_singleton.mp member
    exact Nat.lt_succ_self _
  | function params result =>
    rw [ground, Ground.height, Nat.lt_succ_iff]
    rcases List.mem_append.mp member with inParams | isResult
    · exact (Ground.height_le_heightAll (List.mem_map_of_mem inParams)).trans (le_max_left _ _)
    · obtain rfl := List.mem_singleton.mp isResult
      exact le_max_right _ _
  | record fields =>
    obtain ⟨⟨name, h⟩, inFields, rfl⟩ := List.mem_map.mp member
    have found : ((record fields).ground σ).field? name = some (σ h) := by
      rw [field?_ground_record, lookup_of_mem distinct inFields]
      rfl
    exact Ground.height_lt_of_field? found

end Term

section Pairing

theorem mem_insertByName {α : Type} {item other : String × α} {items : List (String × α)} :
    other ∈ insertByName item items ↔ other = item ∨ other ∈ items := by
  induction items with
  | nil => simp [insertByName]
  | cons first rest ih =>
    rw [insertByName]
    split
    · simp
    · rw [List.mem_cons, ih, List.mem_cons]
      tauto

/-- Sorting keeps the items. -/
theorem mem_sortByName {α : Type} {item : String × α} {items : List (String × α)} :
    item ∈ sortByName items ↔ item ∈ items := by
  induction items with
  | nil => rfl
  | cons first rest ih => rw [sortByName, mem_insertByName, ih, List.mem_cons]

private theorem pairFields_cons (name : String) (h : Handle)
    (rest others : List (String × Handle)) :
    pairFields ((name, h) :: rest) others =
      (others.lookup name).bind fun other =>
        (pairFields rest others).map ((name, h, other) :: ·) := by
  simp only [pairFields, List.mapM_cons]
  cases others.lookup name with
  | none => rfl
  | some other => cases (rest.mapM fun (name, h) =>
      (others.lookup name).map fun other => (name, h, other)) <;> rfl

/-- The pairs are the fields of the first list, each with the first field of its name in the
second. -/
theorem mem_pairFields {fields others : List (String × Handle)}
    {pairs : List (String × Equation)} (paired : pairFields fields others = some pairs)
    {name : String} {h other : Handle} :
    (name, h, other) ∈ pairs ↔ (name, h) ∈ fields ∧ others.lookup name = some other := by
  induction fields generalizing pairs with
  | nil =>
    cases paired
    simp
  | cons first rest ih =>
    obtain ⟨firstName, firstHandle⟩ := first
    rw [pairFields_cons] at paired
    obtain ⟨partner, found, paired⟩ := Option.bind_eq_some_iff.mp paired
    obtain ⟨tail, pairedRest, rfl⟩ := Option.map_eq_some_iff.mp paired
    rw [List.mem_cons, List.mem_cons, ih pairedRest]
    constructor
    · rintro (same | ⟨member, found'⟩)
      · obtain ⟨rfl, rfl, rfl⟩ : name = firstName ∧ h = firstHandle ∧ other = partner := by
          simpa using same
        exact ⟨.inl rfl, found⟩
      · exact ⟨.inr member, found'⟩
    · rintro ⟨same | member, found'⟩
      · obtain ⟨rfl, rfl⟩ : name = firstName ∧ h = firstHandle := by simpa using same
        rw [found] at found'
        obtain rfl := Option.some.inj found'
        exact .inl rfl
      · exact .inr ⟨member, found'⟩

theorem names_pairFields {fields others : List (String × Handle)}
    {pairs : List (String × Equation)} (paired : pairFields fields others = some pairs) :
    pairs.map Prod.fst = fields.map Prod.fst := by
  induction fields generalizing pairs with
  | nil =>
    cases paired
    rfl
  | cons first rest ih =>
    rw [pairFields_cons] at paired
    obtain ⟨partner, -, paired⟩ := Option.bind_eq_some_iff.mp paired
    obtain ⟨tail, pairedRest, rfl⟩ := Option.map_eq_some_iff.mp paired
    rw [List.map_cons, List.map_cons, ih pairedRest]

theorem exists_lookup_of_pairFields {fields others : List (String × Handle)}
    {pairs : List (String × Equation)} (paired : pairFields fields others = some pairs)
    {name : String} {h : Handle} (member : (name, h) ∈ fields) :
    ∃ other, others.lookup name = some other := by
  induction fields generalizing pairs with
  | nil => cases member
  | cons first rest ih =>
    rw [pairFields_cons] at paired
    obtain ⟨partner, found, paired⟩ := Option.bind_eq_some_iff.mp paired
    obtain ⟨tail, pairedRest, -⟩ := Option.map_eq_some_iff.mp paired
    rcases List.mem_cons.mp member with rfl | inRest
    · exact ⟨partner, found⟩
    · exact ih pairedRest inRest

theorem exists_unpaired_of_pairFields {fields others : List (String × Handle)}
    (unpaired : pairFields fields others = none) :
    ∃ name h, (name, h) ∈ fields ∧ others.lookup name = none := by
  induction fields with
  | nil => cases unpaired
  | cons first rest ih =>
    rw [pairFields_cons] at unpaired
    cases found : others.lookup first.1 with
    | none => exact ⟨first.1, first.2, List.mem_cons_self, found⟩
    | some partner =>
      rw [found, Option.bind_some, Option.map_eq_none_iff] at unpaired
      obtain ⟨name, h, member, missing⟩ := ih unpaired
      exact ⟨name, h, List.mem_cons_of_mem _ member, missing⟩

/-- Where every field finds a partner among equally many, the two lists have the same names. -/
theorem names_perm_of_pairFields {fields others : List (String × Handle)}
    (distinct : (fields.map Prod.fst).Nodup) (sameLength : fields.length = others.length)
    {pairs : List (String × Equation)} (paired : pairFields fields others = some pairs) :
    (fields.map Prod.fst).Perm (others.map Prod.fst) := by
  have namesSubset : fields.map Prod.fst ⊆ others.map Prod.fst := by
    intro name member
    obtain ⟨⟨name, h⟩, inFields, rfl⟩ := List.mem_map.mp member
    obtain ⟨other, found⟩ := exists_lookup_of_pairFields paired inFields
    exact mem_names_of_lookup found
  exact (List.subperm_of_subset distinct namesSubset).perm_of_length_le (by simp [sameLength])

private theorem ground_record_eq_iff_pairs {fields others : List (String × Handle)}
    (distinct : (fields.map Prod.fst).Nodup) (sameLength : fields.length = others.length)
    {pairs : List (String × Equation)} (paired : pairFields fields others = some pairs)
    (σ σ' : Assignment) :
    (Term.record fields).ground σ = (Term.record others).ground σ' ↔
      ∀ e ∈ (sortByName pairs).map Prod.snd, σ e.1 = σ' e.2 := by
  have namesPerm := names_perm_of_pairFields distinct sameLength paired
  rw [Term.ground_record_eq_iff]
  constructor
  · intro agree e member
    obtain ⟨⟨name, h, other⟩, inPairs, rfl⟩ := List.mem_map.mp member
    obtain ⟨inFields, found⟩ := (mem_pairFields paired).mp (mem_sortByName.mp inPairs)
    have same := agree name
    rw [lookup_of_mem distinct inFields, found] at same
    exact Option.some.inj same
  · intro holds name
    cases found : fields.lookup name with
    | none =>
      cases found' : others.lookup name with
      | none => rfl
      | some other =>
        obtain ⟨h, isSome⟩ :=
          exists_lookup_of_mem_names (namesPerm.mem_iff.mpr (mem_names_of_lookup found'))
        rw [found] at isSome
        cases isSome
    | some h =>
      have inFields := mem_of_lookup found
      obtain ⟨other, found'⟩ := exists_lookup_of_pairFields paired inFields
      have inPairs := mem_sortByName.mpr ((mem_pairFields paired).mpr ⟨inFields, found'⟩)
      have equal := holds (h, other) (List.mem_map.mpr ⟨_, inPairs, rfl⟩)
      rw [found', Option.map_some, Option.map_some, equal]

private theorem map_eq_map_iff_zip {α β : Type} (f g : α → β) {xs ys : List α}
    (sameLength : xs.length = ys.length) :
    xs.map f = ys.map g ↔ ∀ e ∈ xs.zip ys, f e.1 = g e.2 := by
  induction xs generalizing ys with
  | nil =>
    obtain rfl := List.length_eq_zero_iff.mp sameLength.symm
    simp
  | cons x xs ih =>
    cases ys with
    | nil => cases sameLength
    | cons y ys => simp [ih (Nat.succ.inj sameLength)]

namespace Term

variable {t u : Term}

/-- Each equation of a pairing is between a handle of the one term and a handle of the other. -/
theorem mem_children_of_pairUp {parts : List Equation} (paired : t.pairUp u = .ok parts)
    {e : Equation} (member : e ∈ parts) : e.1 ∈ t.children ∧ e.2 ∈ u.children := by
  cases t <;> cases u <;> simp only [pairUp, reduceCtorEq] at paired
  case int.int =>
    cases paired
    cases member
  case pointer.pointer a b =>
    cases paired
    obtain rfl := List.mem_singleton.mp member
    simp [children]
  case function.function params result params' result' =>
    split at paired
    · cases paired
      rcases List.mem_append.mp member with inParams | isResult
      · obtain ⟨left, right⟩ := List.of_mem_zip inParams
        exact ⟨List.mem_append_left _ left, List.mem_append_left _ right⟩
      · obtain rfl := List.mem_singleton.mp isResult
        simp [children]
    · cases paired
  case record.record fields others =>
    split at paired
    · split at paired
      · rename_i pairs pairedFields
        cases paired
        obtain ⟨⟨name, h, other⟩, inPairs, rfl⟩ := List.mem_map.mp member
        obtain ⟨inFields, found⟩ := (mem_pairFields pairedFields).mp (mem_sortByName.mp inPairs)
        exact ⟨List.mem_map.mpr ⟨_, inFields, rfl⟩, List.mem_map.mpr ⟨_, mem_of_lookup found, rfl⟩⟩
      · cases paired
    · cases paired

/-- The equations of a pairing say exactly that the two terms denote one type, each side of an
equation being read under its own assignment. -/
theorem ground_eq_iff_of_pairUp {parts : List Equation} (paired : t.pairUp u = .ok parts)
    (distinct : t.DistinctNames) (σ σ' : Assignment) :
    t.ground σ = u.ground σ' ↔ ∀ e ∈ parts, σ e.1 = σ' e.2 := by
  cases t <;> cases u <;> simp only [pairUp, reduceCtorEq] at paired
  case int.int =>
    cases paired
    simp [ground]
  case pointer.pointer a b =>
    cases paired
    simp [ground]
  case function.function params result params' result' =>
    split at paired
    · rename_i sameLength
      cases paired
      rw [ground, ground, Ground.function.injEq, map_eq_map_iff_zip σ σ' sameLength]
      simp [or_imp, forall_and]
    · cases paired
  case record.record fields others =>
    split at paired
    · rename_i sameLength
      split at paired
      · rename_i pairs pairedFields
        cases paired
        exact ground_record_eq_iff_pairs distinct sameLength pairedFields σ σ'
      · cases paired
    · cases paired

/-- Terms that do not pair up denote different types under all assignments. -/
theorem ground_ne_of_pairUp {reason : Reason} (unpaired : t.pairUp u = .error reason)
    (distinct : t.DistinctNames) (distinct' : u.DistinctNames) (σ σ' : Assignment) :
    t.ground σ ≠ u.ground σ' := by
  intro equal
  cases t <;> cases u <;> simp only [ground, reduceCtorEq, Ground.ofFields] at equal
  case int.int => cases unpaired
  case pointer.pointer a b => cases unpaired
  case function.function params result params' result' =>
    have sameLength := congrArg List.length (Ground.function.inj equal).1
    simp only [List.length_map] at sameLength
    simp [pairUp, sameLength] at unpaired
  case record.record fields others =>
    have agree := ground_record_eq_iff.mp equal
    have sameLength : fields.length = others.length := by
      apply length_eq_of_lookup_isSome distinct distinct'
      intro name
      have same := congrArg Option.isSome (agree name)
      simpa using same
    rw [pairUp, if_pos sameLength] at unpaired
    split at unpaired
    · cases unpaired
    · rename_i unpairedFields
      obtain ⟨name, h, member, missing⟩ := exists_unpaired_of_pairFields unpairedFields
      have same := agree name
      rw [lookup_of_mem distinct member, missing] at same
      cases same

end Term

end Pairing

namespace Ty

mutual

/-- The ground type of a type under an assignment of its variables. -/
def ground (σ : Assignment) : Ty → Ground
  | int => .int
  | pointer target => .pointer (target.ground σ)
  | function params result => .function (groundAll σ params) (result.ground σ)
  | record fields => .ofFields (groundFields σ fields)
  | var root => σ root

/-- The ground types of a list of types. -/
def groundAll (σ : Assignment) : List Ty → List Ground
  | [] => []
  | t :: rest => t.ground σ :: groundAll σ rest

/-- The ground types of the fields of a record. -/
def groundFields (σ : Assignment) : List (String × Ty) → List (String × Ground)
  | [] => []
  | (name, t) :: rest => (name, t.ground σ) :: groundFields σ rest

end

@[simp]
theorem groundAll_eq_map (σ : Assignment) (ts : List Ty) : groundAll σ ts = ts.map (ground σ) := by
  induction ts with
  | nil => rfl
  | cons t rest ih => rw [groundAll, ih, List.map_cons]

@[simp]
theorem groundFields_eq_map (σ : Assignment) (fields : List (String × Ty)) :
    groundFields σ fields = fields.map fun (name, t) => (name, t.ground σ) := by
  induction fields with
  | nil => rfl
  | cons field rest ih => rw [groundFields, ih, List.map_cons]

end Ty

/-- Writing a term out and then assigning its variables is assigning what its handles are
written out to. -/
theorem Term.ground_toTy (σ : Assignment) (t : Term) (type : Handle → Ty) :
    (t.toTy type).ground σ = t.ground fun h => (type h).ground σ := by
  cases t with
  | int => rfl
  | pointer target => rfl
  | function params result =>
    simp only [toTy, Ty.ground, Ty.groundAll_eq_map, List.map_map, ground, Function.comp_def]
  | record fields =>
    simp only [toTy, Ty.ground, Ty.groundFields_eq_map, List.map_map, ground, Function.comp_def]

end TypeInference
