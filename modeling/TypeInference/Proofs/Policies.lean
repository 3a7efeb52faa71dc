import TypeInference.Proofs.Finishing

/-!
# The two policies

Taking unknown classes to be integers, one typed node after the other, comes to one substitution in
all types at once. Where there is nothing to substitute, refusing unknown types gives the same
answer.
-/

set_option autoImplicit false

namespace TypeInference

namespace Ty

mutual

/-- A type with another type in place of each variable. -/
def subst (type : Handle → Ty) : Ty → Ty
  | int => int
  | pointer target => pointer (target.subst type)
  | function params result => function (substAll type params) (result.subst type)
  | record fields => record (substFields type fields)
  | var root => type root

/-- The types of a list, with other types in place of variables. -/
def substAll (type : Handle → Ty) : List Ty → List Ty
  | [] => []
  | t :: rest => t.subst type :: substAll type rest

/-- The fields of a record, with other types in place of variables. -/
def substFields (type : Handle → Ty) : List (String × Ty) → List (String × Ty)
  | [] => []
  | (name, t) :: rest => (name, t.subst type) :: substFields type rest

end

mutual

private theorem isResolved_subst {type : Handle → Ty} (resolved : ∀ k, (type k).isResolved) :
    ∀ t : Ty, (t.subst type).isResolved
  | int => rfl
  | pointer target => isResolved_subst resolved target
  | function params result => by
    rw [subst, isResolved, Bool.and_eq_true]
    exact ⟨isResolvedAll_subst resolved params, isResolved_subst resolved result⟩
  | record fields => isResolvedFields_subst resolved fields
  | var root => resolved root

private theorem isResolvedAll_subst {type : Handle → Ty} (resolved : ∀ k, (type k).isResolved) :
    ∀ ts : List Ty, isResolvedAll (substAll type ts)
  | [] => rfl
  | t :: rest => by
    rw [substAll, isResolvedAll, Bool.and_eq_true]
    exact ⟨isResolved_subst resolved t, isResolvedAll_subst resolved rest⟩

private theorem isResolvedFields_subst {type : Handle → Ty} (resolved : ∀ k, (type k).isResolved) :
    ∀ fields : List (String × Ty), isResolvedFields (substFields type fields)
  | [] => rfl
  | (name, t) :: rest => by
    rw [substFields, isResolvedFields, Bool.and_eq_true]
    exact ⟨isResolved_subst resolved t, isResolvedFields_subst resolved rest⟩

end

end Ty

namespace Checker

variable {c c' : Checker} {h : Handle} {typed : List Handle}

section Finish

variable (ran : settleAll c = .ok () c') (valid : c'.Valid)

include ran valid

end Finish

end Checker

end TypeInference
