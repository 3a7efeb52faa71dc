import TypeInference.Proofs.Handles
import TypeInference.Proofs.Rendering
import TypeInference.Store.Expand

/-!
# Short texts of types

Diagnostics show a type through a printer that stops at a limit, and the full text of the type comes
from another printer. The two write the same bytes until the limit is reached; from there on the
first only closes what is open, so it cannot run on for long.
-/

set_option autoImplicit false

namespace TypeInference

/-! ### Agreement up to the limit -/

/-- A text is shown in place of a full one: as it is where it fits, and otherwise by its first bytes
up to the limit with something after them. -/
structure Abridges (shown full : String) : Prop where
  whole : full.utf8ByteSize ≤ renderLimit → shown = full
  start : renderLimit < full.utf8ByteSize → renderLimit ≤ shown.utf8ByteSize ∧
    shown.toUTF8.extract 0 renderLimit = full.toUTF8.extract 0 renderLimit

/-- Two texts are equal, or they part after a common start that has reached the limit and is not all
of the second. -/
def EqualToLimit (shown full : String) : Prop :=
  shown = full ∨ ∃ start tail rest, isFull start ∧ rest ≠ "" ∧
    shown = start ++ tail ∧ full = start ++ rest

namespace EqualToLimit

variable {shown full : String}

private theorem append (equal : EqualToLimit shown full) (text : String) :
    EqualToLimit (shown ++ text) (full ++ text) := by
  rcases equal with rfl | ⟨start, tail, rest, limit, more, rfl, rfl⟩
  · exact .inl rfl
  · refine .inr ⟨start, tail ++ text, rest ++ text, limit, ?_, ?_, ?_⟩
    · simp [more]
    · rw [String.append_assoc]
    · rw [String.append_assoc]

private theorem diverge (equal : EqualToLimit shown full) (limit : isFull shown) (tail : String)
    {more : String} (nonempty : more ≠ "") : EqualToLimit (shown ++ tail) (full ++ more) := by
  rcases equal with rfl | ⟨start, tail', rest, limit', nonempty', rfl, rfl⟩
  · exact .inr ⟨shown, tail, more, limit, nonempty, rfl, rfl⟩
  · refine .inr ⟨start, tail' ++ tail, rest ++ more, limit', ?_, ?_, ?_⟩
    · simp [nonempty]
    · rw [String.append_assoc]
    · rw [String.append_assoc]

private theorem abridges (equal : EqualToLimit shown full) : Abridges shown full := by
  rcases equal with rfl | ⟨start, tail, rest, limit, nonempty, rfl, rfl⟩
  · exact ⟨fun _ => rfl, fun long => ⟨long.le, rfl⟩⟩
  have reached : renderLimit ≤ start.utf8ByteSize := by simpa [isFull] using limit
  have positive : rest.utf8ByteSize ≠ 0 := fun zero =>
    nonempty (String.utf8ByteSize_eq_zero_iff.mp zero)
  have cut (text : String) : (start ++ text).toUTF8.extract 0 renderLimit =
      start.toUTF8.extract 0 renderLimit := by
    have beyond : renderLimit - start.utf8ByteSize = 0 := by omega
    simp [String.toUTF8, String.toByteArray_append, ByteArray.extract_append, beyond]
  constructor
  · intro short
    rw [String.utf8ByteSize_append] at short
    omega
  · intro _
    refine ⟨?_, (cut tail).trans (cut rest).symm⟩
    rw [String.utf8ByteSize_append]
    omega

end EqualToLimit

/-- What is written after a text goes on as the full text does, up to the limit. -/
def Continues {α : Type} (write : String → α → String) (a : α) (text : String) : Prop :=
  ∀ shown full, EqualToLimit shown full → EqualToLimit (write shown a) (full ++ text)

private theorem continues_writeItems {α : Type} {write : String → α → String} {text : α → String}
    {items : List α} (each : ∀ a ∈ items, Continues write a (text a)) :
    Continues (writeItems write) items (",".intercalate (items.map text)) := by
  induction items with
  | nil =>
    intro shown full equal
    simpa [writeItems] using equal
  | cons a rest ih =>
    obtain ⟨first, others⟩ := List.forall_mem_cons.mp each
    cases rest with
    | nil =>
      rw [List.map_singleton, String.intercalate_singleton]
      exact first
    | cons b rest =>
      intro shown full equal
      have written := first shown full equal
      simp only [writeItems, List.map_cons, String.intercalate_cons_cons, ← String.append_assoc]
      split
      · rename_i limit
        rw [String.append_assoc]
        exact written.diverge limit ",.." (by simp)
      · exact ih others _ _ (written.append ",")

namespace Ty

theorem textAll_eq_intercalate (ts : List Ty) : textAll ts = ",".intercalate (ts.map text) := by
  induction ts with
  | nil => rfl
  | cons t rest ih =>
    cases rest with
    | nil => simp [textAll]
    | cons u rest => simp only [textAll, ih, List.map_cons, String.intercalate_cons_cons]

theorem textFields_eq_intercalate (fs : List (String × Ty)) :
    textFields fs = ",".intercalate (fs.map fun f => f.1 ++ ":" ++ f.2.text) := by
  induction fs with
  | nil => rfl
  | cons f rest ih =>
    cases rest with
    | nil => simp [textFields]
    | cons g rest => simp only [textFields, ih, List.map_cons, String.intercalate_cons_cons]

private theorem text_ne_empty (t : Ty) : t.text ≠ "" := by
  cases t <;> simp [text]

end Ty

/-- Write a field: its name, a colon and its type. -/
def writeField (write : String → Handle → String) (out : String) (f : String × Handle) : String :=
  write (out ++ f.1 ++ ":") f.2

private theorem Term.write_record (write : String → Handle → String) (out : String)
    (fields : List (String × Handle)) : (Term.record fields).write write out =
      writeItems (writeField write) (out ++ "\x7b") fields ++ "\x7d" := rfl

private theorem continues_writeField {write : String → Handle → String} {f : String × Handle}
    {text : String} (inside : Continues write f.2 text) :
    Continues (writeField write) f (f.1 ++ ":" ++ text) := by
  intro shown full equal
  have written := inside _ _ ((equal.append f.1).append ":")
  simpa only [writeField, String.append_assoc] using written

private theorem Term.continues_write {t : Term} {write : String → Handle → String}
    {type : Handle → Ty} (each : ∀ c ∈ t.children, Continues write c (type c).text) :
    Continues (Term.write write) t (t.toTy type).text := by
  intro shown full equal
  cases t with
  | int => exact equal.append "int"
  | pointer target =>
    have inside := each target (by simp [children]) _ _ (equal.append "&")
    rwa [String.append_assoc] at inside
  | function params result =>
    have listed : Continues (writeItems write) params
        (",".intercalate (params.map fun c => (type c).text)) :=
      continues_writeItems fun c member => each c (by simp [children, member])
    have ended := each result (by simp [children]) _ _
      ((listed _ _ (equal.append "(")).append ") -> ")
    rw [Term.write, toTy, Ty.text, Ty.textAll_eq_intercalate, List.map_map]
    simpa only [Function.comp_def, String.append_assoc] using ended
  | record fields =>
    have listed : Continues (writeItems (writeField write)) fields
        (",".intercalate (fields.map fun f => f.1 ++ ":" ++ (type f.2).text)) :=
      continues_writeItems fun f member =>
        continues_writeField (each f.2 (List.mem_map_of_mem member))
    have ended := (listed _ _ (equal.append "\x7b")).append "\x7d"
    rw [write_record, toTy, Ty.text, Ty.textFields_eq_intercalate, List.map_map]
    simpa only [Function.comp_def, String.append_assoc] using ended

namespace Store

variable {s : Store} {x : Handle} {out : String}

private theorem writeClass_cases (room : ¬ isFull out) (s : Store) (depth : Nat) (x : Handle) :
    s.writeClass depth out x = out ++ "?" ++ toString (s.find x) ∧
        s.unfold depth x = .var (s.find x) ∨
      ∃ below t, depth = below + 1 ∧ s.term? x = some t ∧
        s.writeClass depth out x = t.write (s.writeClass below) out ∧
        s.unfold depth x = t.toTy (s.unfold below) := by
  cases bound : s.term? x with
  | none => exact .inl ⟨writeClass_of_unbound room bound depth, unfold_of_unbound bound depth⟩
  | some t =>
    cases depth with
    | zero =>
      refine .inl ⟨?_, ?_⟩
      · unfold writeClass
        rw [if_neg room, bound]
      · unfold unfold
        rw [bound]
    | succ below =>
      exact .inr ⟨below, t, rfl, rfl, writeClass_of_bound room bound below,
        unfold_of_bound bound below⟩

private theorem continues_writeClass (s : Store) (depth : Nat) (x : Handle) :
    Continues (s.writeClass depth) x (s.unfold depth x).text := by
  induction depth using Nat.strongRecOn generalizing x with
  | ind depth ih =>
    intro shown full equal
    by_cases limit : isFull shown
    · rw [writeClass_of_full limit]
      exact equal.diverge limit ".." (Ty.text_ne_empty _)
    rcases writeClass_cases limit s depth x with ⟨written, type⟩ | ⟨below, t, rfl, -, written, type⟩
    · rw [written, type, String.append_assoc]
      exact equal.append _
    · rw [written, type]
      exact Term.continues_write (fun c _ => ih below (Nat.lt_succ_self below) c) shown full equal

end Store

/-! ### The size of what is shown -/

/-- The bytes of a term's longest field name. -/
def Term.longestName : Term → Nat
  | .record fields => (fields.map fun f => f.1.utf8ByteSize).max?.getD 0
  | .int | .pointer _ | .function _ _ => 0

/-- The bytes of the longest field name in the store's terms. -/
def Store.longestName (s : Store) : Nat := (s.terms.toList.map fun e => e.2.longestName).max?.getD 0

private theorem Term.le_longestName {fields : List (String × Handle)} {f : String × Handle}
    (member : f ∈ fields) : f.1.utf8ByteSize ≤ (Term.record fields).longestName :=
  List.le_max?_getD_of_mem (List.mem_map_of_mem member)

private theorem Store.le_longestName {s : Store} {x : Handle} {t : Term}
    (bound : s.term? x = some t) : t.longestName ≤ s.longestName :=
  List.le_max?_getD_of_mem
    (List.mem_map_of_mem (Std.TreeMap.mem_toList_iff_getElem?_eq_some.mpr bound))

private theorem utf8Len_of_digits {cs : List Char} (digits : ∀ c ∈ cs, c.isDigit) :
    String.utf8Len cs = cs.length := by
  induction cs with
  | nil => rfl
  | cons c rest ih =>
    obtain ⟨first, others⟩ := List.forall_mem_cons.mp digits
    have one : c.utf8Size = 1 := by
      rw [Char.utf8Size_eq_one_iff]
      simp only [Char.isDigit, Bool.and_eq_true, decide_eq_true_eq] at first
      exact UInt32.le_trans first.2 (by decide)
    rw [String.utf8Len_cons, ih others, one, List.length_cons]

private theorem utf8ByteSize_toString_le {n : Nat} (small : n < 2 ^ 32) :
    (toString n).utf8ByteSize ≤ 10 := by
  have ascii : (toString n).utf8ByteSize = (Nat.toDigits 10 n).length := by
    rw [show toString n = n.repr from rfl, Nat.repr_eq_ofList_toDigits, String.utf8ByteSize_ofList]
    exact utf8Len_of_digits fun c member =>
      Nat.isDigit_of_mem_toDigits (by decide) (by decide) member
  rw [ascii, Nat.length_toDigits_le_iff (by decide) (by decide)]
  exact small.trans (by decide)

/-- Writing after a text that has not gone beyond the limit never takes away from it. The further
the text is from the limit the more brackets can still be opened, each for a byte, and each open
bracket can take ten bytes more after the limit, beside the last name and the slack. -/
def StaysWithin {α : Type} (longest slack : Nat) (write : String → α → String) (a : α) : Prop :=
  ∀ out : String, out.utf8ByteSize ≤ renderLimit →
    out.utf8ByteSize ≤ (write out a).utf8ByteSize ∧ (write out a).utf8ByteSize ≤
      renderLimit + 2 + longest + slack + 10 * (renderLimit - out.utf8ByteSize)

private theorem staysWithin_writeItems {α : Type} {write : String → α → String} {items : List α}
    {longest slack : Nat} (each : ∀ a ∈ items, StaysWithin longest slack write a) :
    StaysWithin longest (slack + 3) (writeItems write) items := by
  induction items with
  | nil =>
    intro out room
    simp only [writeItems]
    omega
  | cons a rest ih =>
    obtain ⟨first, others⟩ := List.forall_mem_cons.mp each
    intro out room
    have written := first out room
    cases rest with
    | nil =>
      simp only [writeItems]
      omega
    | cons b rest =>
      simp only [writeItems]
      split
      · rename_i limit
        have dots : ",..".utf8ByteSize = 3 := rfl
        rw [String.utf8ByteSize_append, dots]
        omega
      · rename_i below
        have comma : (write out a ++ ",").utf8ByteSize = (write out a).utf8ByteSize + 1 :=
          String.utf8ByteSize_append
        have short : (write out a).utf8ByteSize < renderLimit := by simpa [isFull] using below
        have later := ih others (write out a ++ ",") (by omega)
        omega

/-- What each handle inside a term does to a text: it stays within the bound, and once the text is
full it adds two dots. -/
structure Stops (longest : Nat) (write : String → Handle → String) (c : Handle) : Prop where
  within : StaysWithin longest 0 write c
  beyond : ∀ out, isFull out → (write out c).utf8ByteSize = out.utf8ByteSize + 2

section Sizes

variable {longest : Nat} {write : String → Handle → String} {out : String}

private theorem Stops.size_le {c : Handle} (stops : Stops longest write c) (out : String) :
    out.utf8ByteSize ≤ (write out c).utf8ByteSize ∧ (write out c).utf8ByteSize ≤
      max (out.utf8ByteSize + 2)
        (renderLimit + 2 + longest + 10 * (renderLimit - out.utf8ByteSize)) := by
  by_cases short : out.utf8ByteSize ≤ renderLimit
  · have within := stops.within out short
    omega
  · have dots := stops.beyond out (by simp only [isFull, decide_eq_true_eq]; omega)
    omega

private theorem staysWithin_writeField {f : String × Handle} (name : f.1.utf8ByteSize ≤ longest)
    (stops : Stops longest write f.2) : StaysWithin longest 1 (writeField write) f := by
  intro out room
  have size : (out ++ f.1 ++ ":").utf8ByteSize = out.utf8ByteSize + f.1.utf8ByteSize + 1 := by
    rw [String.utf8ByteSize_append, String.utf8ByteSize_append]
    rfl
  have written := stops.size_le (out ++ f.1 ++ ":")
  rw [writeField]
  omega

/-- A term stays within the bound where the handles inside do. Its bracket is one byte, for which
ten are given up: seven for the arrow and the dots after it, and three for the list before. -/
private theorem Term.size_write_le {t : Term} (names : t.longestName ≤ longest)
    (each : ∀ c ∈ t.children, Stops longest write c) (room : ¬ isFull out) :
    out.utf8ByteSize ≤ (t.write write out).utf8ByteSize ∧ (t.write write out).utf8ByteSize ≤
      renderLimit + 2 + longest + 10 * (renderLimit - out.utf8ByteSize) := by
  have short : out.utf8ByteSize < renderLimit := by simpa [isFull] using room
  cases t with
  | int =>
    have size : (Term.int.write write out).utf8ByteSize = out.utf8ByteSize + 3 :=
      String.utf8ByteSize_append
    omega
  | pointer target =>
    have size : (out ++ "&").utf8ByteSize = out.utf8ByteSize + 1 := String.utf8ByteSize_append
    have inside := (each target (by simp [children])).within (out ++ "&") (by omega)
    rw [Term.write]
    omega
  | function params result =>
    have size : (out ++ "(").utf8ByteSize = out.utf8ByteSize + 1 := String.utf8ByteSize_append
    have listed := staysWithin_writeItems
      (fun c (member : c ∈ params) => (each c (by simp [children, member])).within)
      (out ++ "(") (by omega)
    have arrow : (writeItems write (out ++ "(") params ++ ") -> ").utf8ByteSize =
        (writeItems write (out ++ "(") params).utf8ByteSize + 5 := String.utf8ByteSize_append
    have ended := (each result (by simp [children])).size_le
      (writeItems write (out ++ "(") params ++ ") -> ")
    rw [Term.write]
    omega
  | record fields =>
    have size : (out ++ "\x7b").utf8ByteSize = out.utf8ByteSize + 1 := String.utf8ByteSize_append
    have field : ∀ f ∈ fields, StaysWithin longest 1 (writeField write) f := fun f member =>
      staysWithin_writeField ((le_longestName member).trans names)
        (each f.2 (List.mem_map_of_mem member))
    have listed := staysWithin_writeItems field (out ++ "\x7b") (by omega)
    rw [write_record, String.utf8ByteSize_append, show "\x7d".utf8ByteSize = 1 from rfl]
    omega

end Sizes

namespace Store

variable {s : Store}

private theorem stops_writeClass (uses : s.Over (· < 2 ^ 32)) {longest : Nat}
    (names : s.longestName ≤ longest) (depth : Nat) {x : Handle} (small : x < 2 ^ 32) :
    Stops longest (s.writeClass depth) x := by
  have dots : ∀ depth x out, isFull out →
      (s.writeClass depth out x).utf8ByteSize = out.utf8ByteSize + 2 := by
    intro depth x out limit
    rw [writeClass_of_full limit]
    exact String.utf8ByteSize_append
  induction depth using Nat.strongRecOn generalizing x with
  | ind depth ih =>
    refine ⟨fun out inLimit => ?_, dots depth x⟩
    by_cases limit : isFull out
    · rw [dots depth x out limit]
      omega
    rcases writeClass_cases limit s depth x with ⟨written, -⟩ | ⟨below, t, rfl, bound, written, -⟩
    · have root := utf8ByteSize_toString_le (uses.find small)
      have mark : "?".utf8ByteSize = 1 := rfl
      have short : out.utf8ByteSize < renderLimit := by simpa [isFull] using limit
      rw [written, String.utf8ByteSize_append, String.utf8ByteSize_append]
      omega
    · rw [written]
      exact Term.size_write_le ((le_longestName bound).trans names)
        (fun c member => ih below (Nat.lt_succ_self below) (uses.children bound member)) limit

/-- What diagnostics show of a class or a term is its full text cut at the limit, and the brackets
and dots that close it keep it short. Only the digits of a root need handles of 32 bits. -/
theorem render_abridges (s : Store) :
    (∀ x, Abridges (s.render x) (s.resolve x).text ∧
      (s.Over (· < 2 ^ 32) → x < 2 ^ 32 → (s.render x).utf8ByteSize ≤ 2202 + s.longestName)) ∧
    ∀ t, Abridges (s.renderTerm t) (s.expand t).text ∧
      (s.Over (· < 2 ^ 32) → (∀ c ∈ t.children, c < 2 ^ 32) →
        (s.renderTerm t).utf8ByteSize ≤ 2202 + max s.longestName t.longestName) := by
  have empty : EqualToLimit "" "" := .inl rfl
  have room : ¬ isFull "" := by decide
  refine ⟨fun x => ⟨?_, fun uses small => ?_⟩, fun t => ⟨?_, fun uses small => ?_⟩⟩
  · have written := continues_writeClass s s.terms.size x "" "" empty
    rw [String.empty_append] at written
    exact written.abridges
  · have size := ((stops_writeClass uses le_rfl s.terms.size small).within "" (by decide)).2
    simp only [renderLimit, String.utf8ByteSize_empty] at size
    rw [render]
    omega
  · have each : ∀ c ∈ t.children, Continues (s.writeClass s.terms.size) c (s.resolve c).text :=
      fun c _ => continues_writeClass s s.terms.size c
    have written := Term.continues_write each "" "" empty
    rw [String.empty_append] at written
    exact written.abridges
  · have each : ∀ c ∈ t.children,
        Stops (max s.longestName t.longestName) (s.writeClass s.terms.size) c := fun c member =>
      stops_writeClass uses (le_max_left _ _) s.terms.size (small c member)
    have size := (Term.size_write_le (le_max_right _ _) each room).2
    simp only [renderLimit, String.utf8ByteSize_empty] at size
    rw [renderTerm]
    omega

/-- A record whose first name nearly fills the text. -/
theorem render_abridges_long_name :
    let name := String.ofList (List.replicate 195 'n')
    let t := Term.record [(name, 1), ("f", 2), ("g", 3)]
    let s : Store := (bind {} 0 t).store
    s.Over (· < 2 ^ 32) ∧ (s.expand t).text = "\x7b" ++ name ++ ":?1,f:?2,g:?3\x7d" ∧
      s.renderTerm t = "\x7b" ++ name ++ ":?1,f:..,..\x7d" ∧ s.longestName = 195 ∧
      Abridges (s.renderTerm t) (s.expand t).text ∧ (s.render 0).utf8ByteSize ≤ 2202 + 195 := by
  intro name t s
  have uses : s.Over (· < 2 ^ 32) :=
    over_bind rooted_empty (over_empty _) (by decide) (by decide)
  have names : s.longestName = 195 := by decide +kernel
  refine ⟨uses, by decide +kernel, by decide +kernel, names, ((render_abridges s).2 t).1, ?_⟩
  exact names ▸ ((render_abridges s).1 0).2 uses (by decide)

end Store

end TypeInference
