import TypeInference.Proofs.Finishing
import TypeInference.Proofs.Naming

/-!
# Bodies in any order

Once all functions are declared, their bodies may be checked in any order. The order decides which
accesses are put off and how the store looks inside, but neither the verdict nor the types that are
read out.
-/

set_option autoImplicit false

namespace TypeInference

/-- Declare all functions of a program, check the bodies of the given ones in order, and finish. -/
def checkInOrder (policy : Policy) (q : Program) (fs : List Function) (table : NodeTable) :
    Except TypeError Typing :=
  answer ((do
    Checker.declareFunctions q
    fs.forM Checker.checkFunction
    Checker.finish policy) { nodes := table })

namespace Checker

variable {table : NodeTable} {q : Program} {f : Function} {fs : List Function}
  {c c' c'' d : Checker} {cs cs' : List Constraint} {policy : Policy}

/-- The constraints of the body of a declared function. -/
def bodyConstraints (q : Program) (c : Checker) (f : Function) : List Constraint :=
  f.body.flatMap fun s => s.constraints (q.env f) (c.returns[f.mark.handle]?.getD 0)

private theorem Declared.signed_slot (declared : Declared table q.functions c)
    (member : f ∈ q.functions) : c.Signed f (c.returns[f.mark.handle]?.getD 0) := by
  obtain ⟨slot, signed⟩ := declared.signed f member
  rw [signed.noted]
  exact signed

private theorem Declared.fits_body (declared : Declared table q.functions c)
    (numbered : Numbered table q.nodes) (member : f ∈ q.functions) :
    ∀ con ∈ bodyConstraints q c f, c.nodes.Fits con := by
  intro con inBody
  obtain ⟨s, inside, inStmt⟩ := List.mem_flatMap.mp inBody
  exact declared.fits numbered member (declared.signed_slot member)
    ((numbered.function member).stmt inside) con inStmt

section Bodies

variable (numbered : Numbered table q.nodes) (wellScoped : q.WellScoped)

include numbered wellScoped

private theorem gathering_checkStmt (member : f ∈ q.functions) {slot : Handle} {s : Stmt}
    (inside : s ∈ f.body) (entered : Entered table q f slot c) :
    c.Gathering (s.constraints (q.env f) slot) (checkStmt slot s) fun _ c' =>
      Entered table q f slot c' ∧ c'.returns = c.returns := by
  have own := (numbered.function member).stmt inside
  have knows := wellScoped.knows numbered member
  have faultless : ∀ con ∈ s.constraints (q.env f) slot, con.Faultless :=
    Stmt.faultless_constraints own fun n inStmt =>
      knows n (Function.nodes_subset_of_mem inside inStmt)
  have solved : c.Gathering (s.constraints (q.env f) slot) (checkStmt slot s)
      fun _ c' => c.SameNames c' := by
    rw [checkStmt]
    refine ending_get ?_
    rw [entered.visible]
    exact gathering_solveAll entered.declared.valid
      (entered.declared.fits numbered member entered.signed own) Stmt.orderly_constraints faultless
  exact (solved.and (adding_checkStmt numbered member entered inside)).post fun _ _ ends =>
    ⟨ends.1.1, ends.2.2, ends.1.2.returns⟩

private theorem gathering_enterFunction (member : f ∈ q.functions)
    (declared : Declared table q.functions c) :
    c.Gathering [] (enterFunction f) fun slot c' =>
      Entered table q f slot c' ∧ c'.returns = c.returns := by
  refine (ending_enterFunction declared member (numbered.function member)).imp
    (fun _ _ ends => ?_) fun _ _ repeats => absurd (repeats.misnames member) wellScoped.not_misnames
  obtain ⟨same, entered, -⟩ := ends
  exact ⟨declared.valid.gathered_of_same same.nodes same.store same.waiting, entered, same.returns⟩

private theorem gathering_checkFunction (member : f ∈ q.functions)
    (declared : Declared table q.functions c) :
    c.Gathering (bodyConstraints q c f) (checkFunction f) fun _ c' =>
      Declared table q.functions c' ∧ c'.returns = c.returns := by
  refine (gathering_enterFunction numbered wellScoped member declared).bind
    (D := bodyConstraints q c f) fun slot c₁ gathered ends => ?_
  obtain ⟨entered, returns⟩ := ends
  have same : c.returns[f.mark.handle]?.getD 0 = slot := by
    rw [← returns, entered.signed.noted, Option.getD_some]
  rw [bodyConstraints, same]
  let I (c' : Checker) : Prop := Entered table q f slot c' ∧ c'.returns = c.returns
  have body : c₁.Gathering (f.body.flatMap fun s => s.constraints (q.env f) slot)
      (f.body.forM (checkStmt slot)) fun _ c' => I c' := by
    refine gathering_forM (fun s inside c' _ inv => ?_) gathered.valid ⟨entered, returns⟩
    exact (gathering_checkStmt numbered wellScoped member inside inv.1).post
      fun _ _ _ ends => ⟨ends.1, ends.2.trans inv.2⟩
  exact body.post fun _ _ _ inv => ⟨inv.1.declared, inv.2⟩

private theorem gathering_bodies (members : ∀ f ∈ fs, f ∈ q.functions)
    (declared : Declared table q.functions d) :
    d.Gathering (fs.flatMap (bodyConstraints q d)) (fs.forM checkFunction) fun _ _ => True := by
  let I (c : Checker) : Prop := Declared table q.functions c ∧ c.returns = d.returns
  have bodies : d.Gathering (fs.flatMap (bodyConstraints q d)) (fs.forM checkFunction)
      fun _ c => I c := by
    refine gathering_forM (fun f member c _ inv => ?_) declared.valid ⟨declared, rfl⟩
    have same : bodyConstraints q d f = bodyConstraints q c f := by
      rw [bodyConstraints, bodyConstraints, inv.2]
    rw [same]
    exact (gathering_checkFunction numbered wellScoped (members f member) inv.1).post
      fun _ _ _ ends => ⟨ends.1, ends.2.trans inv.2⟩
  exact bodies.post fun _ _ _ _ => trivial

end Bodies

/-- How a check ends that has taken constraints in. -/
inductive Ends (c : Checker) (cs : List Constraint) (policy : Policy) :
    Except TypeError Typing → Prop
  /-- A conflict was found, as nothing that is allowed suits the constraints. -/
  | mismatched {e : TypeError} (mismatch : e.isMismatch)
      (unsuited : ∀ n G, c.Allows n G → ¬ ∀ con ∈ cs, con.Suits n G) : Ends c cs policy (.error e)
  /-- The records of some accesses never became known. -/
  | stuck {c' : Checker} {node : Handle} {kind : NodeKind} {type : String} {span : Span}
      (exhausts : c.Exhausts cs c') (waits : c'.waiting ≠ []) :
      Ends c cs policy (.error (.unresolved node kind type span))
  /-- All accesses were settled, and the policy decides. -/
  | finished {c' : Checker} {r : Except TypeError Typing} (exhausts : c.Exhausts cs c')
      (done : c'.waiting = []) (finishes : c'.Finishes policy r) : Ends c cs policy r

private theorem ends_bodies (declared : Declared table q.functions d) (start : d.waiting = [])
    (numbered : Numbered table q.nodes) (wellScoped : q.WellScoped)
    (members : ∀ f ∈ fs, f ∈ q.functions) (policy : Policy) :
    d.Ends (fs.flatMap (bodyConstraints q d)) policy
      (answer ((fs.forM checkFunction >>= fun _ => finish policy) d)) := by
  rcases (gathering_bodies numbered wellScoped members declared).cases with
    ⟨e, c, ran, mismatch, unsuited⟩ | ⟨_, c, ran, gathered, -⟩
  · rw [bind_apply_error ran]
    exact .mismatched mismatch unsuited
  rw [bind_apply_ok ran]
  rcases (ending_settleAll gathered.valid).cases with ⟨e, c', failed, fault⟩ |
    ⟨_, c', settled, settles, done⟩
  · rw [finish, bind_apply_error failed]
    rcases fault with ⟨mismatch, unsuited⟩ | ⟨settles, waits, node, kind, type, span, rfl⟩
    · exact .mismatched mismatch fun n G allows suits =>
        unsuited n G (gathered.allows n G allows suits) fun a waits =>
          suits _ (gathered.access_mem start waits)
    · exact .stuck (settles.exhausts gathered start) waits
  · exact .finished (settles.exhausts gathered start) done (finishes_finish settles.valid settled)

/-- Something is left open: an access waits, or the policy refuses a node that is not determined. -/
def Open (c : Checker) (policy : Policy) : Prop :=
  c.waiting ≠ [] ∨ policy = .reject ∧ ∃ h, c.nodes.IsTyped h ∧ ¬ c.store.Determines h

/-- A finished check is unresolved or accepted, as something is left open or nothing is. -/
theorem Finishes.verdict {r : Except TypeError Typing} (finishes : c.Finishes policy r)
    (done : c.waiting = []) :
    verdict? r = some .unresolved ∧ c.Open policy ∨
      verdict? r = some .accepted ∧ ¬ c.Open policy := by
  cases finishes with
  | ambiguous rejects typed undetermined => exact .inl ⟨rfl, .inr ⟨rejects, _, typed, undetermined⟩⟩
  | typed defaults determines kept =>
    refine .inr ⟨rfl, ?_⟩
    rintro (waits | ⟨rejects, h, typed, undetermined⟩)
    · exact waits done
    · exact undetermined (kept rejects ▸ determines h typed)

private theorem Ends.verdict {r : Except TypeError Typing} (ends : c.Ends cs policy r) :
    (verdict? r = some .mismatched ∧ ∀ n G, c.Allows n G → ¬ ∀ con ∈ cs, con.Suits n G) ∨
    ∃ c', c.Exhausts cs c' ∧ (verdict? r = some .unresolved ∧ c'.Open policy ∨
      verdict? r = some .accepted ∧ ¬ c'.Open policy) := by
  cases ends with
  | mismatched mismatch unsuited => exact .inl ⟨verdict?_of_mismatch mismatch, unsuited⟩
  | stuck exhausts waits => exact .inr ⟨_, exhausts, .inl ⟨rfl, .inl waits⟩⟩
  | finished exhausts done finishes => exact .inr ⟨_, exhausts, finishes.verdict done⟩

private theorem Exhausts.open (exhausts : c.Exhausts cs c') (exhausts' : c.Exhausts cs' c'')
    (same : ∀ con, con ∈ cs ↔ con ∈ cs') (covered : ∀ con ∈ cs, con.Over (· < c.nodes.size))
    (start : c.waiting = []) (isOpen : c'.Open policy) : c''.Open policy := by
  rcases isOpen with waits | ⟨rejects, h, typed, undetermined⟩
  · refine .inl fun done => waits (List.eq_nil_iff_forall_not_mem.mpr fun a member => ?_)
    have member' := exhausts.waiting_subset exhausts' same covered start member
    rw [done] at member'
    cases member'
  · have typed₀ := (exhausts.isTyped_iff h).mp typed
    refine .inr ⟨rejects, h, (exhausts'.isTyped_iff h).mpr typed₀, fun determines => ?_⟩
    refine undetermined fun σ₁ σ₂ solves₁ solves₂ => ?_
    have linked := exhausts.linked exhausts' same covered
    obtain ⟨τ₁, image₁, agree₁⟩ := linked.forth σ₁ solves₁
    obtain ⟨τ₂, image₂, agree₂⟩ := linked.forth σ₂ solves₂
    rw [agree₁ h typed₀.lt_size, agree₂ h typed₀.lt_size]
    exact determines τ₁ τ₂ image₁ image₂

private theorem Ends.verdict_eq {r r' : Except TypeError Typing} (ends : c.Ends cs policy r)
    (ends' : c.Ends cs' policy r') (same : ∀ con, con ∈ cs ↔ con ∈ cs')
    (covered : ∀ con ∈ cs, con.Over (· < c.nodes.size)) (start : c.waiting = []) :
    ∃ v, verdict? r = some v ∧ verdict? r' = some v := by
  have covered' : ∀ con ∈ cs', con.Over (· < c.nodes.size) := fun con member =>
    covered con ((same con).mpr member)
  have same' : ∀ con, con ∈ cs' ↔ con ∈ cs := fun con => (same con).symm
  rcases ends.verdict with ⟨mismatched, unsuited⟩ | ⟨c₁, exhausts, decided⟩
  · rcases ends'.verdict with ⟨mismatched', -⟩ | ⟨c₂, exhausts', -⟩
    · exact ⟨_, mismatched, mismatched'⟩
    · exact absurd (fun con member => exhausts'.suits covered' con ((same con).mp member))
        (unsuited _ _ exhausts'.allows_solves)
  · rcases ends'.verdict with ⟨-, unsuited⟩ | ⟨c₂, exhausts', decided'⟩
    · exact absurd (fun con member => exhausts.suits covered con ((same con).mpr member))
        (unsuited _ _ exhausts.allows_solves)
    · rcases decided with ⟨unresolved, isOpen⟩ | ⟨accepted, closed⟩
      · rcases decided' with ⟨unresolved', -⟩ | ⟨-, closed'⟩
        · exact ⟨_, unresolved, unresolved'⟩
        · exact absurd (exhausts.open exhausts' same covered start isOpen) closed'
      · rcases decided' with ⟨-, isOpen'⟩ | ⟨accepted', -⟩
        · exact absurd (exhausts'.open exhausts same' covered' start isOpen') closed
        · exact ⟨_, accepted, accepted'⟩

private theorem Defaults.ground_resolve (defaults : c.Defaults d) (valid : c.Valid) {h : Handle}
    (determines : d.store.Determines h) :
    (d.store.resolve h).ground (fun _ => .int) = (c.store.resolve h).ground fun _ => .int := by
  have solves := Store.solves_resolve valid.store.toFormed fun _ => .int
  have kept := defaults.store.solves_of_integers solves fun x unbound => by
    rw [Store.resolve_of_unbound unbound, Ty.ground]
  exact determines _ _ (Store.solves_resolve defaults.valid.store.toFormed fun _ => .int) kept

private theorem Ends.typed {t : Typing} (ends : c.Ends cs policy (.ok t)) :
    ∃ c', c.Exhausts cs c' ∧ (∀ h, t.nodes.IsTyped h ↔ c.nodes.IsTyped h) ∧
      ∀ h, c.nodes.IsTyped h → (t.store.resolve h).Settled ∧
        (t.store.resolve h).ground (fun _ => .int) = (c'.store.resolve h).ground fun _ => .int := by
  cases ends with
  | finished exhausts done finishes =>
    cases finishes with
    | typed defaults determines kept =>
      refine ⟨_, exhausts, fun h => ?_, fun h typed => ?_⟩
      · rw [defaults.nodes, exhausts.isTyped_iff]
      have determined := determines h ((exhausts.isTyped_iff h).mpr typed)
      have sound := defaults.valid.store
      exact ⟨Store.settled_resolve sound ((Store.determines_iff sound).mp determined),
        defaults.ground_resolve exhausts.valid determined⟩

private theorem Ends.compatible {t t' : Typing} (ends : c.Ends cs policy (.ok t))
    (ends' : c.Ends cs' policy (.ok t')) (same : ∀ con, con ∈ cs ↔ con ∈ cs')
    (covered : ∀ con ∈ cs, con.Over (· < c.nodes.size)) (h : Handle) :
    Option.Rel (fun a b => a.compatible b) (t.typeOf h) (t'.typeOf h) := by
  obtain ⟨c₁, exhausts, isTyped_iff, types⟩ := ends.typed
  obtain ⟨c₂, exhausts', isTyped_iff', types'⟩ := ends'.typed
  by_cases typed : c.nodes.IsTyped h
  · obtain ⟨settled, ground⟩ := types h typed
    obtain ⟨settled', ground'⟩ := types' h typed
    rw [typeOf_eq_some ((isTyped_iff h).mpr typed), typeOf_eq_some ((isTyped_iff' h).mpr typed)]
    refine .some (Ty.compatible_of_ground_eq settled settled' (σ := fun _ => .int) ?_)
    rw [ground, ground']
    exact (exhausts.linked exhausts' same covered).ground_resolve exhausts.valid.store
      exhausts'.valid.store (Store.matched_self typed.lt_size)
  · rw [typeOf_eq_none (mt (isTyped_iff h).mp typed), typeOf_eq_none (mt (isTyped_iff' h).mp typed)]
    exact .none

end Checker

/-- The bodies of a well-scoped program may be checked in any order: each order leads to the same
verdict, and if the program is accepted, all orders give its nodes the same types up to the order of
fields. -/
theorem checkInOrder_perm {p q : Program} {table : NodeTable}
    (assigned : p.assignIds = .ok (q, table)) (wellScoped : q.WellScoped) {fs fs' : List Function}
    (perm : fs.Perm q.functions) (perm' : fs'.Perm q.functions) (policy : Policy) :
    (∃ v, verdict? (checkInOrder policy q fs table) = some v ∧
      verdict? (checkInOrder policy q fs' table) = some v) ∧
    ∀ t t', checkInOrder policy q fs table = .ok t → checkInOrder policy q fs' table = .ok t' →
      ∀ h, Option.Rel (fun a b => a.compatible b) (t.typeOf h) (t'.typeOf h) := by
  have numbered := Program.numbered_of_assignIds assigned
  have nodup := Program.nodup_handles_of_assignIds assigned
  rw [checkInOrder, checkInOrder]
  rcases (Checker.ending_declareFunctions numbered nodup).cases with ⟨e, c, ran, fault⟩ |
    ⟨_, d, ran, -, declared, start⟩
  · have mismatch := fault.resolve_right wellScoped.not_misnames
    rw [Checker.bind_apply_error ran, Checker.bind_apply_error ran]
    exact ⟨⟨_, verdict?_of_mismatch mismatch, verdict?_of_mismatch mismatch⟩, nofun⟩
  · rw [Checker.bind_apply_ok ran, Checker.bind_apply_ok ran]
    have ends := Checker.ends_bodies declared start numbered wellScoped
      (fun f member => perm.mem_iff.mp member) policy
    have ends' := Checker.ends_bodies declared start numbered wellScoped
      (fun f member => perm'.mem_iff.mp member) policy
    have same : ∀ con, con ∈ fs.flatMap (Checker.bodyConstraints q d) ↔
        con ∈ fs'.flatMap (Checker.bodyConstraints q d) := fun con =>
      ((perm.trans perm'.symm).flatMap_right _).mem_iff
    have covered : ∀ con ∈ fs.flatMap (Checker.bodyConstraints q d),
        con.Over (· < d.nodes.size) := by
      intro con member
      obtain ⟨f, inFunctions, inBody⟩ := List.mem_flatMap.mp member
      exact (declared.fits_body numbered (perm.mem_iff.mp inFunctions) con inBody).covered
    refine ⟨ends.verdict_eq ends' same covered start, fun t t' checked checked' => ?_⟩
    rw [checked] at ends
    rw [checked'] at ends'
    exact ends.compatible ends' same covered

/-- A field is read from a formal that only the call in the other function makes a record. -/
theorem checkInOrder_perm_late_call :
    let p : Program := .ofFunctions [
      { name := "first", formals := [{ name := "r" }], body := [
        .ret {} (.access {} (.var {} "r") "f")] },
      { name := "main", body := [
        .ret {} (.call {} (.var {} "first") [.record {}
          [({ name := "g" }, .null {}), ({ name := "f" }, .num {} 1)]])] }]
    let q := p.number
    p.assignIds = .ok (q, p.table) ∧ q.WellScoped ∧
      verdict? (checkInOrder .defaultToInt q q.functions p.table) = some .accepted ∧
      verdict? (checkInOrder .defaultToInt q q.functions.reverse p.table) = some .accepted ∧
      ∀ t t', checkInOrder .defaultToInt q q.functions p.table = .ok t →
        checkInOrder .defaultToInt q q.functions.reverse p.table = .ok t' →
        ∀ h, Option.Rel (fun a b => a.compatible b) (t.typeOf h) (t'.typeOf h) := by
  intro p q
  have assigned : p.assignIds = .ok (q, p.table) := rfl
  have wellScoped : q.WellScoped := by decide +kernel
  obtain ⟨⟨v, verdict, verdict'⟩, types⟩ := checkInOrder_perm assigned wellScoped (.refl _)
    (List.reverse_perm q.functions) .defaultToInt
  have accepted : verdict? (checkInOrder .defaultToInt q q.functions p.table) = some .accepted := by
    decide +kernel
  rw [accepted] at verdict
  exact ⟨assigned, wellScoped, accepted, verdict'.trans verdict.symm, types⟩

end TypeInference
