import TypeInference.Proofs.Acyclic
import TypeInference.Store.Render

/-!
# Texts of types

Writing a class out goes down through bound classes to a given depth. No class lies inside itself,
so the depth that is used is never the reason to stop, and the text of a bound class is that of its
term.
-/

set_option autoImplicit false

namespace TypeInference

private theorem writeItems_congr {α : Type} {write write' : String → α → String} {items : List α}
    (agree : ∀ a ∈ items, ∀ out, write out a = write' out a) (out : String) :
    writeItems write out items = writeItems write' out items := by
  induction items generalizing out with
  | nil => rfl
  | cons a rest ih =>
    obtain ⟨first, others⟩ := List.forall_mem_cons.mp agree
    cases rest with
    | nil => exact first out
    | cons b rest => simp only [writeItems, first, ih others]

private theorem Term.write_congr {t : Term} {write write' : String → Handle → String}
    (agree : ∀ c ∈ t.children, ∀ out, write out c = write' out c) (out : String) :
    t.write write out = t.write write' out := by
  cases t with
  | int => rfl
  | pointer target => exact agree target (by simp [children]) _
  | function params result =>
    have params_eq : writeItems write (out ++ "(") params = writeItems write' (out ++ "(") params :=
      writeItems_congr (fun c member => agree c (by simp [children, member])) _
    rw [Term.write, Term.write, params_eq]
    exact agree result (by simp [children]) _
  | record fields =>
    refine congrArg (· ++ "\x7d") (writeItems_congr (fun field member text => ?_) _)
    exact agree field.2 (List.mem_map_of_mem member) _

namespace Store

variable {s : Store} {x : Handle} {t : Term} {out : String}

theorem writeClass_of_full (full : isFull out) (depth : Nat) (x : Handle) :
    s.writeClass depth out x = out ++ ".." := by
  unfold writeClass
  rw [if_pos full]

theorem writeClass_of_unbound (room : ¬ isFull out) (unbound : s.term? x = none) (depth : Nat) :
    s.writeClass depth out x = out ++ "?" ++ toString (s.find x) := by
  unfold writeClass
  rw [if_neg room, unbound]

theorem writeClass_of_bound (room : ¬ isFull out) (bound : s.term? x = some t) (depth : Nat) :
    s.writeClass (depth + 1) out x = t.write (s.writeClass depth) out := by
  unfold writeClass
  rw [if_neg room, bound]

private theorem writeClass_eq (rooted : s.Rooted) (acyclic : s.Acyclic) {depth depth' : Nat}
    {x : Handle} (enough : (s.boundWithin x).card ≤ depth)
    (enough' : (s.boundWithin x).card ≤ depth') (out : String) :
    s.writeClass depth out x = s.writeClass depth' out x := by
  induction x using acyclic.inside_out rooted generalizing depth depth' out with
  | step x ih =>
    by_cases full : isFull out
    · rw [writeClass_of_full full, writeClass_of_full full]
    cases bound : s.term? x with
    | none => rw [writeClass_of_unbound full bound, writeClass_of_unbound full bound]
    | some t =>
      have positive := card_boundWithin_pos rooted bound
      obtain ⟨n, rfl⟩ : ∃ n, depth = n + 1 := ⟨depth - 1, by omega⟩
      obtain ⟨m, rfl⟩ : ∃ m, depth' = m + 1 := ⟨depth' - 1, by omega⟩
      rw [writeClass_of_bound full bound, writeClass_of_bound full bound]
      refine Term.write_congr (fun c inTerm text => ?_) out
      have fewer := card_boundWithin_child_lt rooted acyclic bound inTerm
      exact ih t bound c inTerm (by omega) (by omega) text

/-- The text of a bound class is that of its term. -/
theorem render_of_bound (rooted : s.Rooted) (acyclic : s.Acyclic) (bound : s.term? x = some t) :
    s.render x = s.renderTerm t := by
  have enough := s.card_boundWithin_le x
  have room : ¬ isFull "" := by decide
  rw [render, writeClass_eq rooted acyclic enough (enough.trans (Nat.le_succ _)),
    writeClass_of_bound room bound]
  rfl

/-- Handles of one class have one text. -/
theorem render_find (rooted : s.Rooted) (x : Handle) : s.render (s.find x) = s.render x := by
  unfold render writeClass
  rw [term?, term?, rooted.find_find]

end Store

end TypeInference
