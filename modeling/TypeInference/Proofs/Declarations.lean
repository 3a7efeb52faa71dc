import TypeInference.Checker.Program
import TypeInference.Proofs.Checking

/-!
# Checking a program adds its typing rules

Functions are declared with their signatures, and each body is checked in the scope of its function.
Together these steps add exactly the demand that the program is well typed.
-/

set_option autoImplicit false

namespace TypeInference

/-- In a list with distinct keys, no earlier item has the key of a later one. -/
theorem not_mem_earlier {α β : Type} {key : α → β} {xs done rest : List α} {x : α}
    (nodup : (xs.map key).Nodup) (split : xs = done ++ x :: rest) : key x ∉ done.map key := by
  rw [split, List.map_append, List.map_cons] at nodup
  intro repeated
  exact (List.nodup_append.mp nodup).2.2 _ repeated _ List.mem_cons_self rfl

/-- A new key keeps keys distinct. -/
theorem nodup_map_concat {α : Type} {key : α → String} {xs : List α} {x : α}
    (nodup : (xs.map key).Nodup) (fresh : key x ∉ xs.map key) :
    ((xs ++ [x]).map key).Nodup := by
  rw [List.map_append, List.map_singleton, ← List.concat_eq_append]
  exact nodup.concat fresh

section Declares

variable {α : Type} {name : α → String} {mark : α → Mark}

/-- A table of names holds the handles of the things declared, the first of each name. -/
def Declares (name : α → String) (mark : α → Mark) (table : Std.TreeMap String Handle)
    (xs : List α) : Prop :=
  ∀ n : String, table[n]? = (xs.find? (name · == n)).bind fun x => (mark x).id

private theorem declares_nil : Declares name mark ∅ [] := fun n => by simp

private theorem Declares.insert {table : Std.TreeMap String Handle} {xs : List α} {x : α}
    {id : Handle} (declares : Declares name mark table xs)
    (numbered : ∀ y ∈ xs, ∃ h, (mark y).id = some h) (fresh : ¬ table.contains (name x))
    (carried : (mark x).id = some id) :
    Declares name mark (table.insert (name x) id) (xs ++ [x]) := by
  intro n
  rw [Std.TreeMap.getElem?_insert, List.find?_append]
  by_cases same : name x = n
  · subst same
    have absent : xs.find? (name · == name x) = none := by
      cases found : xs.find? (name · == name x) with
      | none => rfl
      | some y =>
        obtain ⟨h, carried'⟩ := numbered y (List.mem_of_find?_eq_some found)
        have held : table[name x]? = some h := by rw [declares, found, Option.bind_some, carried']
        rw [Std.TreeMap.contains_eq_isSome_getElem?, held] at fresh
        exact absurd rfl fresh
    simp [absent, carried]
  · have differ : ¬ compare (name x) n = .eq := fun equal =>
      same (Std.LawfulEqCmp.eq_of_compare equal)
    have other : [x].find? (name · == n) = none := by simp [same]
    rw [if_neg differ, other, Option.or_none]
    exact declares n

private theorem Declares.not_contains {table : Std.TreeMap String Handle} {xs : List α} {n : String}
    (declares : Declares name mark table xs) (absent : n ∉ xs.map name) : ¬ table.contains n := by
  have missing : xs.find? (name · == n) = none := by
    rw [List.find?_eq_none]
    intro x member same
    exact absent (List.mem_map.mpr ⟨x, member, by simpa using same⟩)
  rw [Std.TreeMap.contains_eq_isSome_getElem?, declares, missing]
  simp

theorem Declares.contains_iff {table : Std.TreeMap String Handle} {xs : List α} {n : String}
    (declares : Declares name mark table xs) (numbered : ∀ y ∈ xs, ∃ h, (mark y).id = some h) :
    table.contains n ↔ n ∈ xs.map name := by
  constructor
  · intro held
    by_contra absent
    exact declares.not_contains absent held
  · intro declared
    obtain ⟨x, member, rfl⟩ := List.mem_map.mp declared
    rw [Std.TreeMap.contains_eq_isSome_getElem?, declares]
    cases found : xs.find? (name · == name x) with
    | none => exact absurd (List.find?_eq_none.mp found x member) (by simp)
    | some y =>
      obtain ⟨h, carried⟩ := numbered y (List.mem_of_find?_eq_some found)
      simp [carried]

end Declares

namespace Checker

variable {c c' : Checker} {P : Assignment → Prop}

theorem require_eq_ok {m : Mark} {kind : NodeKind} {h : Handle} (carried : m.id = some h) :
    require m kind c = .ok h c := by
  rw [require, carried]
  rfl

/-- A name that is in scope is refused, though it means its later declaration from then on. -/
theorem declare_eq {kind : NodeKind} {b : Binding} {h : Handle} (carried : b.mark.id = some h) :
    declare kind b c = if c.scope.contains b.name
      then .error (.duplicateName b.name h b.mark.span) { c with scope := c.scope.insert b.name h }
      else .ok () { c with scope := c.scope.insert b.name h } := by
  let c₁ : Checker := { c with scope := c.scope.insert b.name h }
  rw [declare, bind_apply_ok (require_eq_ok carried)]
  by_cases known : c.scope.contains b.name
  · rw [if_pos known]
    change (if c.scope.contains b.name then _ else _ : CheckM Unit) c₁ = _
    rw [if_pos known]
    rfl
  · rw [if_neg known]
    change (if c.scope.contains b.name then _ else _ : CheckM Unit) c₁ = _
    rw [if_neg known]
    rfl

/-- Nothing but the names in scope and the log has changed. -/
structure OnlyScope (c c' : Checker) : Prop where
  nodes : c'.nodes = c.nodes
  store : c'.store = c.store
  waiting : c'.waiting = c.waiting
  functions : c'.functions = c.functions
  returns : c'.returns = c.returns

private theorem OnlyScope.refl (c : Checker) : c.OnlyScope c := ⟨rfl, rfl, rfl, rfl, rfl⟩

private theorem OnlyScope.trans {c'' : Checker} (first : c.OnlyScope c')
    (second : c'.OnlyScope c'') : c.OnlyScope c'' :=
  ⟨second.nodes.trans first.nodes, second.store.trans first.store,
    second.waiting.trans first.waiting, second.functions.trans first.functions,
    second.returns.trans first.returns⟩

private theorem Valid.adds_onlyScope (valid : c.Valid) (same : c.OnlyScope c') :
    c.Adds (fun _ => True) c' := valid.adds_of_same same.nodes same.store same.waiting

/-- The error is about a binding whose name an earlier one has. -/
def Repeats (bs : List Binding) (e : TypeError) : Prop :=
  ∃ done b rest h, bs = done ++ b :: rest ∧ b.name ∈ done.map (·.name) ∧ b.mark.id = some h ∧
    e = .duplicateName b.name h b.mark.span

private theorem Repeats.append {bs : List Binding} {e : TypeError} (repeats : Repeats bs e)
    (more : List Binding) : Repeats (bs ++ more) e := by
  obtain ⟨done, b, rest, h, rfl, twice⟩ := repeats
  exact ⟨done, b, rest ++ more, h, by simp, twice⟩

private theorem Repeats.refutes {bs : List Binding} {e : TypeError} (repeats : Repeats bs e) :
    c.Refutes P e := by
  obtain ⟨-, -, -, -, -, -, -, rfl⟩ := repeats
  trivial

private theorem ending_declareAll {kind : NodeKind} {seen bs : List Binding}
    (declares : Declares Binding.name Binding.mark c.scope seen)
    (numbered : ∀ b ∈ seen ++ bs, ∃ h, b.mark.id = some h)
    (distinct : (seen.map (·.name)).Nodup) :
    c.Ending (bs.forM (declare kind)) (fun _ c' => c.OnlyScope c' ∧
      Declares Binding.name Binding.mark c'.scope (seen ++ bs) ∧
        ((seen ++ bs).map (·.name)).Nodup) fun e _ => Repeats (seen ++ bs) e := by
  let I (done : List Binding) (c' : Checker) : Prop :=
    c.OnlyScope c' ∧ Declares Binding.name Binding.mark c'.scope (seen ++ done) ∧
      ((seen ++ done).map (·.name)).Nodup
  refine ending_forM (I := I) ?_ ⟨.refl c, by simpa using ⟨declares, distinct⟩⟩
  rintro done b rest split c' ⟨same, declares', distinct'⟩
  have split' : seen ++ bs = (seen ++ done) ++ b :: rest := by simp [split]
  have numbered' : ∀ y ∈ seen ++ done, ∃ h, y.mark.id = some h := fun y member =>
    numbered y (split' ▸ List.mem_append_left _ member)
  obtain ⟨h, carried⟩ := numbered b (by simp [split])
  rw [Ending, declare_eq carried]
  by_cases known : b.name ∈ (seen ++ done).map (·.name)
  · rw [if_pos ((declares'.contains_iff numbered').mpr known)]
    exact ⟨seen ++ done, b, rest, h, split', known, carried, rfl⟩
  · have fresh := (declares'.contains_iff numbered').not.mpr known
    rw [if_neg fresh]
    refine ⟨same.trans ⟨rfl, rfl, rfl, rfl, rfl⟩, ?_, ?_⟩
    · rw [← List.append_assoc]
      exact declares'.insert numbered' fresh carried
    · rw [← List.append_assoc]
      exact nodup_map_concat distinct' known

/-- A function has the return slot, and its type is that of its formals to the slot. -/
structure Signed (c : Checker) (f : Function) (slot : Handle) : Prop where
  noted : c.returns[f.mark.handle]? = some slot
  below : slot < c.nodes.size
  typed : ∀ σ, c.Admits σ →
    σ f.mark.handle = .function (f.formals.map fun b => σ b.mark.handle) (σ slot)

private theorem Signed.of_adds {f : Function} {slot : Handle} (signed : c.Signed f slot)
    (adds : c.Adds P c') (returns : c'.returns[f.mark.handle]? = c.returns[f.mark.handle]?) :
    c'.Signed f slot where
  noted := returns.trans signed.noted
  below := signed.below.trans_le adds.size_le
  typed σ admits := signed.typed σ (adds.meets σ admits).1

theorem mapM_require_eq_ok {kind : NodeKind} {bs : List Binding}
    (numbered : ∀ b ∈ bs, ∃ h, b.mark.id = some h) :
    (bs.mapM fun b => require b.mark kind) c = .ok (bs.map (·.mark.handle)) c := by
  induction bs with
  | nil => rfl
  | cons b rest ih =>
    obtain ⟨⟨h, carried⟩, others⟩ := List.forall_mem_cons.mp numbered
    rw [List.mapM_cons, bind_apply_ok (require_eq_ok carried), bind_apply_ok (ih others),
      List.map_cons, Mark.handle, carried]
    rfl

private theorem signature_eq_ok {f : Function} {h slot : Handle} (carried : f.mark.id = some h)
    (found : c.returns[h]? = some slot) : signature f c = .ok slot c := by
  rw [signature, bind_apply_ok (require_eq_ok carried), get_bind_apply, found]
  rfl

/-- A function without a return slot gets one that is minted, and is bound to its type. -/
theorem signature_eq_mint {f : Function} (carried : f.mark.id = some f.mark.handle)
    (numbered : ∀ b ∈ f.formals, ∃ h, b.mark.id = some h)
    (fresh : c.returns[f.mark.handle]? = none) :
    signature f c = (mint f.mark.span >>= fun slot => do
      modify fun c => { c with returns := c.returns.insert f.mark.handle slot }
      bindAt f.mark.span f.mark.handle (.function (f.formals.map (·.mark.handle)) slot)
      return slot) c := by
  rw [signature, bind_apply_ok (require_eq_ok carried), get_bind_apply, fresh]
  exact bind_apply_ok (mapM_require_eq_ok numbered)

/-- A function and its formals are numbered by handles of the table. -/
structure Numbers (c : Checker) (f : Function) : Prop where
  carried : f.mark.id = some f.mark.handle
  numbered : ∀ b ∈ f.formals, ∃ h, b.mark.id = some h
  below : f.mark.handle < c.nodes.size
  belowFormals : ∀ b ∈ f.formals, b.mark.handle < c.nodes.size

private theorem readsBelow_function {f : Function} {slot : Handle} (numbers : c.Numbers f)
    (below : slot < c.nodes.size) : ReadsBelow c.nodes.size fun σ => σ f.mark.handle =
      (Term.function (f.formals.map (·.mark.handle)) slot).ground σ := by
  intro σ σ' agree equal
  have formals : (f.formals.map (·.mark.handle)).map σ =
      (f.formals.map (·.mark.handle)).map σ' := by
    refine List.map_congr_left fun h member => agree h ?_
    obtain ⟨b, inFormals, rfl⟩ := List.mem_map.mp member
    exact numbers.belowFormals b inFormals
  rw [Term.ground, ← agree _ numbers.below, ← formals, ← agree slot below]
  exact equal

private theorem readsBelow_signature {f : Function} {n : Nat} (below : f.mark.handle < n)
    (belowFormals : ∀ b ∈ f.formals, b.mark.handle < n) : ReadsBelow n fun σ => ∃ result,
      σ f.mark.handle = .function (f.formals.map fun b => σ b.mark.handle) result := by
  rintro σ σ' agree ⟨result, equal⟩
  have kept : ∀ b ∈ f.formals, σ b.mark.handle = σ' b.mark.handle := fun b member =>
    agree _ (belowFormals b member)
  exact ⟨result, by rw [← agree _ below, equal, List.map_congr_left kept]⟩

private theorem adding_bindSlot {f : Function} {slot : Handle} (valid : c.Valid)
    (numbers : c.Numbers f) (below : slot < c.nodes.size)
    (noted : c.returns[f.mark.handle]? = some slot) :
    c.Adding (fun σ => σ f.mark.handle =
        (Term.function (f.formals.map (·.mark.handle)) slot).ground σ)
      (do bindAt f.mark.span f.mark.handle (.function (f.formals.map (·.mark.handle)) slot)
          return slot) fun result c' => c'.Signed f result ∧ c.SameNames c' := by
  have plain : (Term.function (f.formals.map (·.mark.handle)) slot).DistinctNames := trivial
  have bound : c.Adding (fun σ => σ f.mark.handle =
        (Term.function (f.formals.map (·.mark.handle)) slot).ground σ)
      (bindAt f.mark.span f.mark.handle (.function (f.formals.map (·.mark.handle)) slot))
      fun _ c' => c.SameNames c' :=
    (adding_bindAt valid plain (fun _ _ => Iff.rfl) (readsBelow_function numbers below)).post
      fun _ _ _ => Stores.names
  have both := bound.bind (Q := fun _ => True) (f := fun _ => (pure slot : CheckM Handle))
    (L := fun result c' => c'.Signed f result ∧ c.SameNames c') ?_ (readsBelow_true _)
  · exact both.congr (by simp)
  · intro _ c' adds names
    refine ⟨adds.valid.adds_of_same rfl rfl rfl,
      ⟨names.returns ▸ noted, below.trans_le adds.size_le, fun σ admits => ?_⟩, names⟩
    have equal := (adds.meets σ admits).2
    rwa [Term.ground, List.map_map] at equal

private theorem adding_signature {f : Function} (valid : c.Valid) (numbers : c.Numbers f)
    (fresh : c.returns[f.mark.handle]? = none) :
    c.Adding (fun σ => ∃ result,
        σ f.mark.handle = .function (f.formals.map fun b => σ b.mark.handle) result)
      (signature f) fun slot c' => c'.Signed f slot ∧ c'.functions = c.functions ∧
        ∀ h, h ≠ f.mark.handle → c'.returns[h]? = c.returns[h]? := by
  refine Ending.of_eq (adding_mint (Q := fun σ => σ f.mark.handle =
      (Term.function (f.formals.map (·.mark.handle)) c.nodes.size).ground σ) valid ?_ ?_ ?_)
    (signature_eq_mint numbers.carried numbers.numbered fresh)
  · intro c' nodes names adds
    refine adding_modify rfl rfl rfl ?_
    have minted : c.nodes.size < c'.nodes.size := by
      rw [nodes, NodeTable.size_mint]
      exact Nat.lt_succ_self _
    let c₁ : Checker := { c' with returns := c'.returns.insert f.mark.handle c.nodes.size }
    have numbers₁ : c₁.Numbers f := ⟨numbers.carried, numbers.numbered, numbers.below.trans minted,
      fun b member => (numbers.belowFormals b member).trans minted⟩
    have noted : c'.Adds (fun _ => True) c₁ := adds.valid.adds_of_same rfl rfl rfl
    refine (adding_bindSlot noted.valid numbers₁ minted (by simp [c₁])).post fun _ c'' _ ends =>
      ⟨ends.1, ends.2.functions.trans names.functions, fun h other => ?_⟩
    have differ : ¬ compare f.mark.handle h = .eq := fun equal =>
      other (Std.LawfulEqCmp.eq_of_compare equal).symm
    rw [ends.2.returns, Std.TreeMap.getElem?_insert, if_neg differ, names.returns]
  · intro σ equal
    rw [Term.ground, List.map_map] at equal
    exact ⟨σ c.nodes.size, equal⟩
  · rintro σ ⟨result, equal⟩
    refine ⟨result, ?_⟩
    have kept : ∀ b ∈ f.formals,
        Function.update σ c.nodes.size result b.mark.handle = σ b.mark.handle := fun b member =>
      Function.update_of_ne (numbers.belowFormals b member).ne result σ
    rw [Function.update_of_ne numbers.below.ne, Term.ground, Function.update_self, List.map_map,
      equal]
    exact congrArg (Ground.function · result) (List.map_congr_left kept).symm

/-- The functions declared so far: their names are known and they are signed. -/
structure Declared (table : NodeTable) (done : List Function) (c : Checker) : Prop where
  valid : c.Valid
  size_le : table.size ≤ c.nodes.size
  isTyped_iff : ∀ h, c.nodes.IsTyped h ↔ table.IsTyped h
  functions : Declares Function.name Function.mark c.functions done
  signed : ∀ f ∈ done, ∃ slot, c.Signed f slot
  returns : ∀ h slot, c.returns[h]? = some slot → h ∈ done.map (·.mark.handle)

variable {table : NodeTable} {done : List Function} {f : Function}

private theorem Declared.of_adds (declared : Declared table done c) (adds : c.Adds P c')
    (functions : c'.functions = c.functions) (returns : c'.returns = c.returns) :
    Declared table done c' where
  valid := adds.valid
  size_le := declared.size_le.trans adds.size_le
  isTyped_iff h := (adds.isTyped_iff h).trans (declared.isTyped_iff h)
  functions := functions ▸ declared.functions
  signed g member := by
    obtain ⟨slot, signed⟩ := declared.signed g member
    exact ⟨slot, signed.of_adds adds (by rw [returns])⟩
  returns := returns ▸ declared.returns

theorem Declared.returns_eq_none (declared : Declared table done c)
    (unused : f.mark.handle ∉ done.map (·.mark.handle)) : c.returns[f.mark.handle]? = none := by
  cases found : c.returns[f.mark.handle]? with
  | none => rfl
  | some slot => exact absurd (declared.returns _ slot found) unused

/-- The bindings of a numbered function are numbered. -/
theorem numbered_bindings (numbered : Numbered table f.nodes) :
    ∀ b ∈ f.formals ++ f.locals, ∃ h, b.mark.id = some h := by
  intro b member
  rcases List.mem_append.mp member with formal | isLocal
  · obtain ⟨h, carried, -⟩ := numbered _ (Function.formal_mem_nodes formal)
    exact ⟨h, carried⟩
  · obtain ⟨h, carried, -⟩ := numbered (b.node .localVar)
      (List.mem_cons_of_mem _ (List.mem_append_right _ (Stmt.node_mem_of_localsAll isLocal)))
    exact ⟨h, carried⟩

theorem Declared.numbers (declared : Declared table done c) (numbered : Numbered table f.nodes) :
    c.Numbers f := by
  have own := numbered.typedIn
  refine ⟨?_, fun b member => numbered_bindings numbered b (List.mem_append_left _ member), ?_, ?_⟩
  · obtain ⟨h, carried, -⟩ := numbered _ List.mem_cons_self
    change f.mark.id = some h at carried
    rw [Mark.handle, carried]
    rfl
  · have typed : table.IsTyped f.mark.handle := own _ List.mem_cons_self rfl
    exact typed.lt_size.trans_le declared.size_le
  · intro b member
    have typed : table.IsTyped b.mark.handle := own _ (Function.formal_mem_nodes member) rfl
    exact typed.lt_size.trans_le declared.size_le

/-- A name that is known is refused; any other is noted before the function is signed. -/
theorem declareFunction_eq (carried : f.mark.id = some f.mark.handle) :
    declareFunction f c = if c.functions.contains f.name
      then .error (.duplicateName f.name f.mark.handle f.mark.span) c
      else (modify (fun c => { c with functions := c.functions.insert f.name f.mark.handle }) >>=
        fun _ => discard (signature f)) c := by
  rw [declareFunction, bind_apply_ok (require_eq_ok carried), get_bind_apply]
  by_cases known : c.functions.contains f.name
  · rw [if_pos known, if_pos known]
    rfl
  · rw [if_neg known, if_neg known]

private theorem Declared.append {slot : Handle} (declared : Declared table done c)
    (adds : c.Adds P c')
    (functions : Declares Function.name Function.mark c'.functions (done ++ [f]))
    (unused : f.mark.handle ∉ done.map (·.mark.handle)) (signed : c'.Signed f slot)
    (returns : ∀ h, h ≠ f.mark.handle → c'.returns[h]? = c.returns[h]?) :
    Declared table (done ++ [f]) c' where
  valid := adds.valid
  size_le := declared.size_le.trans adds.size_le
  isTyped_iff h := (adds.isTyped_iff h).trans (declared.isTyped_iff h)
  functions := functions
  signed g member := by
    rcases List.mem_append.mp member with old | new
    · obtain ⟨slot', signed'⟩ := declared.signed g old
      have other : g.mark.handle ≠ f.mark.handle := fun equal =>
        unused (equal ▸ List.mem_map_of_mem (f := fun g : Function => g.mark.handle) old)
      exact ⟨slot', signed'.of_adds adds (returns _ other)⟩
    · rw [List.mem_singleton.mp new]
      exact ⟨slot, signed⟩
  returns h slot' found := by
    rw [List.map_append, List.mem_append]
    by_cases own : h = f.mark.handle
    · exact .inr (by simp [own])
    · exact .inl (declared.returns h slot' (by rw [← found, returns h own]))

/-- Declaring a function demands that it has a function type from its formals. -/
theorem adding_declareFunction (declared : Declared table done c)
    (numbered : Numbered table f.nodes) (earlier : ∀ g ∈ done, ∃ h, g.mark.id = some h)
    (unused : f.mark.handle ∉ done.map (·.mark.handle)) :
    c.Adding (fun σ => ∃ result,
        σ f.mark.handle = .function (f.formals.map fun b => σ b.mark.handle) result)
      (declareFunction f) fun _ c' => Declared table (done ++ [f]) c' := by
  have numbers := declared.numbers numbered
  have ran := declareFunction_eq (c := c) numbers.carried
  by_cases known : c.functions.contains f.name
  · rw [Adding, Ending, ran, if_pos known]
    trivial
  · rw [if_neg known] at ran
    let c₁ : Checker := { c with functions := c.functions.insert f.name f.mark.handle }
    have noted : c.Adds (fun _ => True) c₁ := declared.valid.adds_of_same rfl rfl rfl
    have fresh := declared.returns_eq_none unused
    have numbers₁ : c₁.Numbers f :=
      ⟨numbers.carried, numbers.numbered, numbers.below, numbers.belowFormals⟩
    refine Ending.of_eq (adding_modify rfl rfl rfl (ending_discard (Adding.post
      (adding_signature noted.valid numbers₁ fresh) ?_))) ran
    rintro slot c' adds ⟨signed, functions, returns⟩
    have names : Declares Function.name Function.mark c'.functions (done ++ [f]) := by
      rw [functions]
      exact declared.functions.insert earlier known numbers.carried
    have both := noted.trans adds (readsBelow_signature numbers.below numbers.belowFormals)
    exact declared.append both names unused signed returns

section Bodies

variable {q : Program}

private theorem adding_declareFunctions (numbered : Numbered table q.nodes)
    (nodup : (q.functions.map (·.mark.handle)).Nodup) (start : Declared table [] c) :
    c.Adding (fun σ => ∀ f ∈ q.functions, ∃ result,
        σ f.mark.handle = .function (f.formals.map fun b => σ b.mark.handle) result)
      (declareFunctions q) fun _ c' => Declared table q.functions c' := by
  refine adding_forM (I := Declared table) start.valid ?_ ?_ start
  · intro f member
    have numbers := start.numbers (numbered.function member)
    exact readsBelow_signature numbers.below numbers.belowFormals
  · intro done f rest split c declared
    have member : f ∈ q.functions := by simp [split]
    have earlier : ∀ g ∈ done, ∃ h, g.mark.id = some h := fun g inDone =>
      numbered.function_id (by simp [split, inDone])
    exact adding_declareFunction declared (numbered.function member) earlier
      (not_mem_earlier nodup split)

private theorem env_eq_of_declares (declared : Declared table q.functions c)
    (declares : Declares Binding.name Binding.mark c.scope (f.formals ++ f.locals))
    (numbered : ∀ b ∈ f.formals ++ f.locals, ∃ h, b.mark.id = some h) : c.env = q.env f := by
  funext name
  rw [env, declares, declared.functions, Program.env]
  cases found : (f.formals ++ f.locals).find? (·.name == name) with
  | none => rfl
  | some b =>
    obtain ⟨h, carried⟩ := numbered b (List.mem_of_find?_eq_some found)
    simp [carried]

private theorem enterFunction_eq {h slot : Handle} (carried : f.mark.id = some h)
    (found : c.returns[h]? = some slot) :
    enterFunction f c = (do
      f.formals.forM (declare .formal)
      f.locals.forM (declare .localVar)
      return slot : CheckM Handle) { c with log := c.log.push (.entered f.name), scope := ∅ } := by
  let c₀ : Checker := { c with log := c.log.push (.entered f.name) }
  have known : signature f c₀ = .ok slot c₀ := signature_eq_ok carried found
  rw [enterFunction]
  change (signature f >>= _) c₀ = _
  rw [bind_apply_ok known]
  rfl

/-- The checker works on the body of a declared function, whose names are in scope. -/
structure Entered (table : NodeTable) (q : Program) (f : Function) (slot : Handle) (c : Checker) :
    Prop where
  declared : Declared table q.functions c
  visible : c.env = q.env f
  signed : c.Signed f slot

private theorem Declared.of_onlyScope (declared : Declared table done c) (same : c.OnlyScope c') :
    Declared table done c' :=
  declared.of_adds (declared.valid.adds_onlyScope same) same.functions same.returns

/-- Entering a declared function puts its names in scope and changes nothing else, unless one of
them is repeated. -/
theorem ending_enterFunction (declared : Declared table q.functions c) (member : f ∈ q.functions)
    (numbered : Numbered table f.nodes) :
    c.Ending (enterFunction f) (fun slot c' => c.OnlyScope c' ∧ Entered table q f slot c' ∧
      ((f.formals ++ f.locals).map (·.name)).Nodup)
      fun e _ => Repeats (f.formals ++ f.locals) e := by
  obtain ⟨slot, signed⟩ := declared.signed f member
  have bindings := numbered_bindings numbered
  refine Ending.of_eq ?_ (enterFunction_eq (declared.numbers numbered).carried signed.noted)
  -- the formals are declared in an empty scope, the locals in that of the formals
  let c₁ : Checker := { c with log := c.log.push (.entered f.name), scope := ∅ }
  have empty : Declares Binding.name Binding.mark c₁.scope [] := declares_nil
  have formals : c₁.Ending (f.formals.forM (declare .formal)) (fun _ c' => c₁.OnlyScope c' ∧
      Declares Binding.name Binding.mark c'.scope ([] ++ f.formals) ∧
        (([] ++ f.formals).map Binding.name).Nodup)
      fun e _ => Repeats (f.formals ++ f.locals) e :=
    (ending_declareAll empty (fun b inFormals => bindings b (List.mem_append_left _ inFormals))
      List.nodup_nil).imp (fun _ _ => id) fun _ _ repeats => repeats.append f.locals
  refine formals.bind fun _ c₂ ends₂ => ?_
  obtain ⟨same₂, declares₂, distinct₂⟩ := ends₂
  refine (ending_declareAll declares₂ bindings distinct₂).bind fun _ c₃ ends₃ => ?_
  obtain ⟨same₃, declares₃, distinct₃⟩ := ends₃
  have opened : c.OnlyScope c₁ := ⟨rfl, rfl, rfl, rfl, rfl⟩
  have same := opened.trans (same₂.trans same₃)
  have declared₃ := declared.of_onlyScope same
  exact ⟨same, ⟨declared₃, env_eq_of_declares declared₃ declares₃ bindings,
    signed.of_adds (declared.valid.adds_onlyScope same) (by rw [same.returns])⟩, distinct₃⟩

private theorem adding_enterFunction (declared : Declared table q.functions c)
    (member : f ∈ q.functions) (numbered : Numbered table f.nodes) :
    c.Adding (fun _ => True) (enterFunction f) fun slot c' => Entered table q f slot c' :=
  (ending_enterFunction declared member numbered).imp
    (fun _ _ ends => ⟨declared.valid.adds_onlyScope ends.1, ends.2.1⟩) fun _ _ => Repeats.refutes

private theorem readsBelow_wellTyped (numbered : Numbered table q.nodes)
    (member : f ∈ q.functions) :
    ReadsBelow table.size fun σ => f.WellTyped Ground.algebra (q.env f) σ := by
  intro σ σ' agree typed
  have related : Related Eq table.IsTyped (q.env f) σ σ' :=
    ⟨fun h isTyped => agree h isTyped.lt_size,
      fun _ _ found => Program.typedIn_env numbered.typedIn member found⟩
  exact typed.simulate Ground.simulates_self related (numbered.function member).typedIn

/-- The constraints of a statement of the function fit what the checker has handed out. -/
theorem Declared.fits (declared : Declared table q.functions c) (numbered : Numbered table q.nodes)
    (member : f ∈ q.functions) {slot : Handle} (signed : c.Signed f slot) {s : Stmt}
    (inBody : Numbered table s.nodes) :
    ∀ con ∈ s.constraints (q.env f) slot, c.nodes.Fits con := by
  intro con inStmt
  have names : ∀ name h, q.env f name = some h → table.IsTyped h := fun _ _ found =>
    Program.typedIn_env numbered.typedIn member found
  rcases Stmt.over_constraints names inBody.typedIn con inStmt with
    covered | ⟨arg, span, typed, rfl⟩
  · exact NodeTable.fits_of_over (covered.mono fun h typed => (declared.isTyped_iff h).mpr typed)
  · exact ⟨⟨typed.lt_size.trans_le declared.size_le, signed.below⟩, fun _ equal => by cases equal⟩

/-- Checking a statement of a function that was entered adds its constraints. -/
theorem adding_checkStmt (numbered : Numbered table q.nodes) (member : f ∈ q.functions)
    {slot : Handle} (entered : Entered table q f slot c) {s : Stmt} (inside : s ∈ f.body) :
    c.Adding (fun σ => Constraint.HoldAll σ (s.constraints (q.env f) slot)) (checkStmt slot s)
      fun _ c' => Entered table q f slot c' := by
  obtain ⟨declared, visible, signed⟩ := entered
  have fits := declared.fits numbered member signed ((numbered.function member).stmt inside)
  rw [checkStmt]
  refine ending_get ?_
  rw [visible]
  refine (adding_solveAll declared.valid fits Stmt.orderly_constraints).post
    fun _ c' adds names => ?_
  refine ⟨declared.of_adds adds names.functions names.returns, ?_,
    signed.of_adds adds (by rw [names.returns])⟩
  rw [← visible]
  funext name
  rw [env, env, names.scope, names.functions]

private theorem adding_body (numbered : Numbered table q.nodes) (member : f ∈ q.functions)
    {slot : Handle} (entered : Entered table q f slot c) :
    c.Adding (fun σ => f.WellTyped Ground.algebra (q.env f) σ) (f.body.forM (checkStmt slot))
      fun _ c' => Declared table q.functions c' := by
  have inBody : ∀ s ∈ f.body, Numbered table s.nodes := fun _ inside =>
    (numbered.function member).stmt inside
  have all : c.Adding (fun σ => ∀ s ∈ f.body, Constraint.HoldAll σ (s.constraints (q.env f) slot))
      (f.body.forM (checkStmt slot)) fun _ c' => Entered table q f slot c' := by
    refine adding_forM
      (D := fun (s : Stmt) σ => Constraint.HoldAll σ (s.constraints (q.env f) slot))
      (I := fun _ c' => Entered table q f slot c') entered.declared.valid ?_ ?_ entered
    · intro s inside σ σ' agree hold con inStmt
      exact (entered.declared.fits numbered member entered.signed (inBody s inside) con
        inStmt).covered.readsBelow agree (hold con inStmt)
    · intro done s rest split c' entered'
      exact adding_checkStmt numbered member entered' (by simp [split])
  refine (all.congr fun σ admits => ?_).post fun _ _ _ entered' => entered'.declared
  have body : (∀ s ∈ f.body, Constraint.HoldAll σ (s.constraints (q.env f) slot)) ↔
      Stmt.WellTypedAll Ground.algebra (q.env f) σ (σ slot) f.body := by
    rw [Stmt.wellTypedAll_iff]
    exact forall₂_congr fun s inside => Stmt.holdAll_constraints (inBody s inside)
  rw [body]
  -- the result of a function type is unique, so it is the type of the slot
  constructor
  · exact fun typed => ⟨σ slot, entered.signed.typed σ admits, typed⟩
  · rintro ⟨result, same, typed⟩
    have equal := (entered.signed.typed σ admits).symm.trans same
    rwa [(Ground.function.inj equal).2]

private theorem adding_checkFunction (numbered : Numbered table q.nodes) (member : f ∈ q.functions)
    (declared : Declared table q.functions c) :
    c.Adding (fun σ => f.WellTyped Ground.algebra (q.env f) σ) (checkFunction f)
      fun _ c' => Declared table q.functions c' := by
  have both := (adding_enterFunction declared member (numbered.function member)).bind
    (fun _ _ _ entered => adding_body numbered member entered)
    ((readsBelow_wellTyped numbered member).mono declared.size_le)
  exact both.congr (by simp)

/-- A checker that has seen nothing has declared nothing. -/
theorem declared_start (table : NodeTable) : Declared table [] { nodes := table } :=
  ⟨⟨Store.sound_empty, fun _ σ' _ _ => (admits_start table σ').store,
    fun _ member => by cases member⟩,
    Nat.le_refl _, fun _ => Iff.rfl, declares_nil, fun _ member => (by cases member),
    fun _ _ found => (by simp at found)⟩

theorem checkProgram_eq (numbered : Numbered table q.nodes) :
    checkProgram q c = (declareFunctions q >>= fun _ => q.functions.forM checkFunction) c := by
  obtain ⟨h, carried, -⟩ := numbered _ List.mem_cons_self
  change q.mark.id = some h at carried
  have required : (discard (require q.mark .program) : CheckM Unit) c = .ok () c := by
    change EStateM.map _ (require q.mark .program) _ = _
    rw [EStateM.map, require_eq_ok carried]
  rw [checkProgram, bind_apply_ok required]

/-- Checking a numbered program demands that the program is well typed. -/
theorem adding_checkProgram (numbered : Numbered table q.nodes)
    (nodup : (q.functions.map (·.mark.handle)).Nodup) :
    ({ nodes := table } : Checker).Adding (fun σ => q.WellTyped Ground.algebra σ) (checkProgram q)
      fun _ c' => Declared table q.functions c' := by
  have bodies : ∀ c', Declared table q.functions c' →
      c'.Adding (fun σ => q.WellTyped Ground.algebra σ) (q.functions.forM checkFunction)
        fun _ c'' => Declared table q.functions c'' := fun c' declared =>
    adding_forM (I := fun _ c'' => Declared table q.functions c'') declared.valid
      (fun f member => (readsBelow_wellTyped numbered member).mono declared.size_le)
      (fun _ f _ split _ declared => adding_checkFunction numbered (by simp [split]) declared)
      declared
  have reads : ReadsBelow table.size fun σ => q.WellTyped Ground.algebra σ :=
    fun σ σ' agree typed f member => readsBelow_wellTyped numbered member agree (typed f member)
  have both := (adding_declareFunctions numbered nodup (declared_start table)).bind
    (fun _ c' _ declared => bodies c' declared) reads
  refine Ending.of_eq (both.congr fun σ _ => ⟨And.right, fun typed => ⟨?_, typed⟩⟩)
    (checkProgram_eq numbered)
  intro f member
  obtain ⟨result, same, -⟩ := typed f member
  exact ⟨result, same⟩

end Bodies

end Checker

end TypeInference
