import TypeInference.Proofs.Abridgement

/-!
# Types can be read back

The text of a type does not say by itself where it ends: `?1` is the start of `?12`. What may come
after a type in a longer text does. Before a comma, a closing bracket or the end, a text is that of
one type only, whatever follows there; this is proved of a type from the same about its parts, and
that a whole text belongs to one type is the case where nothing follows.
-/

set_option autoImplicit false

namespace TypeInference

/-- The text is empty or goes on with a comma or a closing bracket, as it may after a type. -/
def Delimits (rest : String) : Prop := ∀ c ∈ rest.toList.head?, c = ',' ∨ c = ')' ∨ c = '\x7d'

private theorem delimits_empty : Delimits "" := by simp [Delimits]

private theorem delimits_comma (rest : String) : Delimits ("," ++ rest) := by simp [Delimits]

private theorem delimits_paren (rest : String) : Delimits (")" ++ rest) := by simp [Delimits]

private theorem delimits_brace (rest : String) : Delimits ("\x7d" ++ rest) := by simp [Delimits]

/-! ### Items with one reading -/

private theorem eq_of_run {p : Char → Bool} {run run' rest rest' : String}
    (inside : ∀ c ∈ run.toList, p c) (inside' : ∀ c ∈ run'.toList, p c)
    (outside : ∀ c ∈ rest.toList.head?, ¬ p c) (outside' : ∀ c ∈ rest'.toList.head?, ¬ p c)
    (same : run ++ rest = run' ++ rest') : run = run' ∧ rest = rest' := by
  have cut {start stop : String} (inside : ∀ c ∈ start.toList, p c)
      (outside : ∀ c ∈ stop.toList.head?, ¬ p c) :
      (start ++ stop).toList.takeWhile p = start.toList := by
    have ends : stop.toList.takeWhile p = [] := by
      cases chars : stop.toList with
      | nil => rfl
      | cons c more => exact List.takeWhile_cons_of_neg (outside c (by simp [chars]))
    rw [String.toList_append, List.takeWhile_append_of_pos inside, ends, List.append_nil]
  have runs : run = run' := by
    apply String.toList_injective
    rw [← cut inside outside, ← cut inside' outside', same]
  subst runs
  exact ⟨rfl, (String.append_right_inj run).mp same⟩

section Items

variable {α : Type} {allowed : α → Prop} {text : α → String}

/-- Before a delimiter the text of an item is the text of no other allowed item, nor of the same
item with something else after it. -/
def Readable (allowed : α → Prop) (text : α → String) (a : α) : Prop :=
  ∀ b, allowed b → ∀ rest rest', Delimits rest → Delimits rest' →
    text a ++ rest = text b ++ rest' → a = b ∧ rest = rest'

/-- What follows the first of some items: a comma and the others where there are any. -/
def afterFirst (others : List String) (rest : String) : String :=
  match others with
  | [] => rest
  | next :: others => "," ++ ",".intercalate (next :: others) ++ rest

private theorem intercalate_cons_append (first : String) (others : List String) (rest : String) :
    ",".intercalate (first :: others) ++ rest = first ++ afterFirst others rest := by
  cases others with
  | nil => rw [String.intercalate_singleton, afterFirst]
  | cons next others =>
    simp only [String.intercalate_cons_cons, afterFirst, String.append_assoc]

private theorem delimits_afterFirst {rest : String} (ends : Delimits rest) (others : List String) :
    Delimits (afterFirst others rest) := by
  cases others with
  | nil => exact ends
  | cons next others =>
    rw [afterFirst, String.append_assoc]
    exact delimits_comma _

section Closing

variable {close rest rest' : String} (closes : close = ")" ∨ close = "\x7d")

include closes

private theorem delimits_close (rest : String) : Delimits (close ++ rest) := by
  rcases closes with rfl | rfl
  · exact delimits_paren rest
  · exact delimits_brace rest

private theorem comma_append_ne_close (rest rest' : String) : "," ++ rest ≠ close ++ rest' := by
  rcases closes with rfl | rfl <;> simp [← String.toList_inj]

private theorem eq_of_afterFirst {xs ys : List α} (each : ∀ a ∈ xs, Readable allowed text a)
    (right : ∀ b ∈ ys, allowed b)
    (same : afterFirst (xs.map text) (close ++ rest) = afterFirst (ys.map text) (close ++ rest')) :
    xs = ys ∧ rest = rest' := by
  induction xs generalizing ys with
  | nil =>
    cases ys with
    | nil => exact ⟨rfl, (String.append_right_inj close).mp same⟩
    | cons b ys =>
      rw [List.map_nil, List.map_cons, afterFirst, afterFirst, String.append_assoc] at same
      exact absurd same.symm (comma_append_ne_close closes _ _)
  | cons a xs ih =>
    cases ys with
    | nil =>
      rw [List.map_nil, List.map_cons, afterFirst, afterFirst, String.append_assoc] at same
      exact absurd same (comma_append_ne_close closes _ _)
    | cons b ys =>
      obtain ⟨first, others⟩ := List.forall_mem_cons.mp each
      obtain ⟨plain, plainOthers⟩ := List.forall_mem_cons.mp right
      rw [List.map_cons, List.map_cons, afterFirst, afterFirst, String.append_assoc,
        String.append_assoc, String.append_right_inj, intercalate_cons_append,
        intercalate_cons_append] at same
      obtain ⟨rfl, after⟩ := first b plain _ _ (delimits_afterFirst (delimits_close closes rest) _)
        (delimits_afterFirst (delimits_close closes rest') _) same
      obtain ⟨rfl, ends⟩ := ih others plainOthers after
      exact ⟨rfl, ends⟩

/-- Items with commas between them are told from other such items by the bracket that ends them,
where no item begins with it. -/
private theorem eq_of_separated
    (opens : ∀ a, allowed a → ∀ rest rest', text a ++ rest ≠ close ++ rest') {xs ys : List α}
    (each : ∀ a ∈ xs, Readable allowed text a) (left : ∀ a ∈ xs, allowed a)
    (right : ∀ b ∈ ys, allowed b)
    (same : ",".intercalate (xs.map text) ++ (close ++ rest) =
      ",".intercalate (ys.map text) ++ (close ++ rest')) :
    xs = ys ∧ rest = rest' := by
  cases xs with
  | nil =>
    cases ys with
    | nil => exact ⟨rfl, by simpa using same⟩
    | cons b ys =>
      rw [List.map_cons, intercalate_cons_append, List.map_nil, String.intercalate_nil,
        String.empty_append] at same
      exact absurd same.symm (opens b (right b List.mem_cons_self) _ _)
  | cons a xs =>
    cases ys with
    | nil =>
      rw [List.map_cons, intercalate_cons_append, List.map_nil, String.intercalate_nil,
        String.empty_append] at same
      exact absurd same (opens a (left a List.mem_cons_self) _ _)
    | cons b ys =>
      -- with a comma in front of both, they are what two lists have after an item
      refine eq_of_afterFirst closes each right ?_
      rw [List.map_cons, List.map_cons, afterFirst, afterFirst, String.append_assoc,
        String.append_assoc, ← List.map_cons, ← List.map_cons, same]

end Closing

end Items

/-! ### Names -/

/-- A name without the characters that end a field's name or a record. -/
def Plain (name : String) : Prop := ':' ∉ name.toList ∧ '\x7d' ∉ name.toList

instance (name : String) : Decidable (Plain name) :=
  inferInstanceAs (Decidable (':' ∉ name.toList ∧ '\x7d' ∉ name.toList))

namespace Ty

mutual

/-- The names of all fields in a type, at any depth. -/
def fieldNames : Ty → List String
  | int | var _ => []
  | pointer target => target.fieldNames
  | function params result => fieldNamesAll params ++ result.fieldNames
  | record fields => fieldNamesFields fields

/-- The names of fields in a list of types. -/
def fieldNamesAll : List Ty → List String
  | [] => []
  | t :: rest => t.fieldNames ++ fieldNamesAll rest

/-- The names of fields and of the fields in their types. -/
def fieldNamesFields : List (String × Ty) → List String
  | [] => []
  | (name, t) :: rest => name :: t.fieldNames ++ fieldNamesFields rest

end

private theorem fieldNamesAll_eq_flatMap (ts : List Ty) :
    fieldNamesAll ts = ts.flatMap fieldNames := by
  induction ts with
  | nil => rfl
  | cons t rest ih => rw [fieldNamesAll, ih, List.flatMap_cons]

private theorem fieldNamesFields_eq_flatMap (fs : List (String × Ty)) :
    fieldNamesFields fs = fs.flatMap fun f => f.1 :: f.2.fieldNames := by
  induction fs with
  | nil => rfl
  | cons f rest ih => rw [fieldNamesFields, ih, List.flatMap_cons, List.cons_append]

/-- All field names in a type, at any depth, are plain. -/
def PlainNames (t : Ty) : Prop := ∀ name ∈ t.fieldNames, Plain name

instance (t : Ty) : Decidable t.PlainNames :=
  inferInstanceAs (Decidable (∀ name ∈ t.fieldNames, Plain name))

/-- A field with a plain name and plain names in its type. -/
def PlainField (f : String × Ty) : Prop := Plain f.1 ∧ f.2.PlainNames

private theorem plainNames_pointer {target : Ty} :
    (pointer target).PlainNames ↔ target.PlainNames := by
  simp [PlainNames, fieldNames]

private theorem plainNames_function {params : List Ty} {result : Ty} :
    (function params result).PlainNames ↔ (∀ t ∈ params, t.PlainNames) ∧ result.PlainNames := by
  simp only [PlainNames, fieldNames, fieldNamesAll_eq_flatMap, List.forall_mem_append,
    List.forall_mem_flatMap]

private theorem plainNames_record {fields : List (String × Ty)} :
    (record fields).PlainNames ↔ ∀ f ∈ fields, PlainField f := by
  simp only [PlainNames, PlainField, fieldNames, fieldNamesFields_eq_flatMap,
    List.forall_mem_flatMap, List.forall_mem_cons]

/-! ### One reading for each type -/

/-- A field as it is written in a record. -/
def fieldText (f : String × Ty) : String := f.1 ++ ":" ++ f.2.text

private theorem textFields_eq_fieldText (fs : List (String × Ty)) :
    textFields fs = ",".intercalate (fs.map fieldText) :=
  textFields_eq_intercalate fs

private theorem text_append_ne_paren (t : Ty) (rest rest' : String) :
    t.text ++ rest ≠ ")" ++ rest' := by
  cases t <;> simp [text, ← String.toList_inj]

private theorem fieldText_append_ne_brace {f : String × Ty} (plain : PlainField f)
    (rest rest' : String) : fieldText f ++ rest ≠ "\x7d" ++ rest' := by
  obtain ⟨-, brace⟩ := plain.1
  cases chars : f.1.toList with
  | nil => simp [fieldText, ← String.toList_inj, chars]
  | cons c more =>
    rw [chars] at brace
    simp only [List.mem_cons, not_or] at brace
    simp [fieldText, ← String.toList_inj, chars, Ne.symm brace.1]

private theorem readable_int : Readable PlainNames text int := by
  intro b _ rest rest' _ _ same
  cases b with
  | int => exact ⟨rfl, (String.append_right_inj _).mp same⟩
  | _ => simp [text, ← String.toList_inj] at same

private theorem readable_pointer {target : Ty} (inside : Readable PlainNames text target) :
    Readable PlainNames text (pointer target) := by
  intro b plain rest rest' ends ends' same
  cases b with
  | pointer target' =>
    simp only [text, String.append_assoc, String.append_right_inj] at same
    obtain ⟨rfl, after⟩ := inside target' (plainNames_pointer.mp plain) rest rest' ends ends' same
    exact ⟨rfl, after⟩
  | _ => simp [text, ← String.toList_inj] at same

private theorem readable_function {params : List Ty} {result : Ty}
    (plain : ∀ t ∈ params, t.PlainNames) (each : ∀ t ∈ params, Readable PlainNames text t)
    (last : Readable PlainNames text result) :
    Readable PlainNames text (function params result) := by
  intro b plain' rest rest' ends ends' same
  cases b with
  | function params' result' =>
    obtain ⟨plainParams, plainResult⟩ := plainNames_function.mp plain'
    have arrow (text : String) : ") -> " ++ text = ")" ++ (" -> " ++ text) := by
      rw [← String.append_assoc]
      rfl
    simp only [text, textAll_eq_intercalate, String.append_assoc, arrow,
      String.append_right_inj] at same
    obtain ⟨rfl, results⟩ := eq_of_separated (.inl rfl) (fun t _ => text_append_ne_paren t)
      each plain plainParams same
    rw [String.append_right_inj] at results
    obtain ⟨rfl, after⟩ := last result' plainResult rest rest' ends ends' results
    exact ⟨rfl, after⟩
  | _ => simp [text, ← String.toList_inj] at same

private theorem readable_field {f : String × Ty} (plain : Plain f.1)
    (inside : Readable PlainNames text f.2) : Readable PlainField fieldText f := by
  intro g plain' rest rest' ends ends' same
  simp only [fieldText, String.append_assoc] at same
  -- Neither name has a colon, so both stop at the first one.
  have named : f.1 = g.1 ∧ ":" ++ (f.2.text ++ rest) = ":" ++ (g.2.text ++ rest') := by
    apply eq_of_run (p := fun c => c != ':') _ _ _ _ same
    · exact fun c member => bne_iff_ne.mpr (ne_of_mem_of_not_mem member plain.1)
    · exact fun c member => bne_iff_ne.mpr (ne_of_mem_of_not_mem member plain'.1.1)
    · simp
    · simp
  obtain ⟨names, types⟩ := named
  rw [String.append_right_inj] at types
  obtain ⟨types, after⟩ := inside g.2 plain'.2 rest rest' ends ends' types
  exact ⟨Prod.ext names types, after⟩

private theorem readable_record {fields : List (String × Ty)} (plain : ∀ f ∈ fields, PlainField f)
    (each : ∀ f ∈ fields, Readable PlainField fieldText f) :
    Readable PlainNames text (record fields) := by
  intro b plain' rest rest' _ _ same
  cases b with
  | record fields' =>
    simp only [text, textFields_eq_fieldText, String.append_assoc,
      String.append_right_inj] at same
    obtain ⟨rfl, after⟩ := eq_of_separated (.inr rfl) (fun f => fieldText_append_ne_brace)
      each plain (plainNames_record.mp plain') same
    exact ⟨rfl, after⟩
  | _ => simp [text, ← String.toList_inj] at same

private theorem readable_var (root : Handle) : Readable PlainNames text (var root) := by
  intro b _ rest rest' ends ends' same
  cases b with
  | var root' =>
    simp only [text, String.append_assoc, String.append_right_inj] at same
    have digits (n : Nat) : ∀ c ∈ (toString n).toList, c.isDigit := by
      intro c member
      rw [Nat.toString_eq_ofList_toDigits, String.toList_ofList] at member
      exact Nat.isDigit_of_mem_toDigits (by decide) (by decide) member
    have stops {rest : String} (ends : Delimits rest) : ∀ c ∈ rest.toList.head?, ¬ c.isDigit := by
      intro c first
      rcases ends c first with rfl | rfl | rfl <;> decide
    obtain ⟨numbers, after⟩ :=
      eq_of_run (digits root) (digits root') (stops ends) (stops ends') same
    exact ⟨by rw [Nat.repr_injective numbers], after⟩
  | _ => simp [text, ← String.toList_inj] at same

mutual

private theorem readable : (t : Ty) → t.PlainNames → Readable PlainNames text t
  | int, _ => readable_int
  | pointer target, plain => readable_pointer (target.readable (plainNames_pointer.mp plain))
  | function params result, plain => by
    obtain ⟨plainParams, plainResult⟩ := plainNames_function.mp plain
    exact readable_function plainParams (readableAll params plainParams)
      (result.readable plainResult)
  | record fields, plain => by
    have plain := plainNames_record.mp plain
    exact readable_record plain (readableFields fields plain)
  | var root, _ => readable_var root

private theorem readableAll : (ts : List Ty) → (∀ t ∈ ts, t.PlainNames) →
    ∀ t ∈ ts, Readable PlainNames text t
  | [], _ => by simp
  | t :: rest, plain => by
    obtain ⟨first, others⟩ := List.forall_mem_cons.mp plain
    exact List.forall_mem_cons.mpr ⟨t.readable first, readableAll rest others⟩

private theorem readableFields : (fs : List (String × Ty)) → (∀ f ∈ fs, PlainField f) →
    ∀ f ∈ fs, Readable PlainField fieldText f
  | [], _ => by simp
  | (name, t) :: rest, plain => by
    obtain ⟨first, others⟩ := List.forall_mem_cons.mp plain
    exact List.forall_mem_cons.mpr
      ⟨readable_field first.1 (t.readable first.2), readableFields rest others⟩

end

/-- The text of a type with plain field names is that of no other such type, and this holds within a
longer text too: where a delimiter or nothing comes after it, it can be read as one type only, which
ends at one place. -/
theorem text_unambiguous {a b : Ty} (plain : a.PlainNames) (plain' : b.PlainNames) :
    (a.text = b.text → a = b) ∧
      ∀ rest rest' : String, Delimits rest → Delimits rest' →
        a.text ++ rest = b.text ++ rest' → a = b ∧ rest = rest' := by
  have reading := a.readable plain b plain'
  refine ⟨fun same => ?_, reading⟩
  have whole : a.text ++ "" = b.text ++ "" := by rw [same]
  exact (reading "" "" delimits_empty delimits_empty whole).1

/-- The text of one type may be the start of another's, and a name may hold a comma. -/
theorem text_unambiguous_nested :
    (∀ rest rest' : String, Delimits rest → Delimits rest' →
      (var 1).text ++ rest ≠ (var 12).text ++ rest') ∧
    ∀ b : Ty, b.PlainNames → b.text = "(?1,\x7bx,y:&?12\x7d) -> int" →
      b = function [var 1, record [("x,y", pointer (var 12))]] int := by
  constructor
  · intro rest rest' ends ends' same
    have one : (var 1).PlainNames := by decide +kernel
    have twelve : (var 12).PlainNames := by decide +kernel
    have equal := ((text_unambiguous one twelve).2 rest rest' ends ends' same).1
    simp at equal
  · intro b plain same
    have plain' : (function [var 1, record [("x,y", pointer (var 12))]] int).PlainNames := by
      decide +kernel
    exact (text_unambiguous plain plain').1 (same.trans (by decide +kernel))

-- A colon in a name takes the place of another field.
example : (record [("a:int,b", int)]).text = (record [("a", int), ("b", int)]).text := by
  decide +kernel

end Ty

end TypeInference
