import TypeInference.Term

/-!
# Types

A type is a finite tree of type constructors; a variable stands for a class that is still unknown
and is named by the handle at the root of that class.
-/

set_option autoImplicit false

namespace TypeInference

/-- Types with nothing left to look up. -/
inductive Ty
  | int
  | pointer (target : Ty)
  | function (params : List Ty) (result : Ty)
  | record (fields : List (String × Ty))
  | var (root : Handle)
deriving Repr, Inhabited

namespace Ty

mutual

/-- Types are equal when they agree symbol by symbol, the order of fields included. -/
def decEq : (a b : Ty) → Decidable (a = b)
  | int, int => isTrue rfl
  | pointer a, pointer b =>
    match decEq a b with
    | isTrue h => isTrue (by rw [h])
    | isFalse h => isFalse (by simpa using h)
  | function ps r, function qs s =>
    match decEqAll ps qs, decEq r s with
    | isTrue h, isTrue k => isTrue (by rw [h, k])
    | isFalse h, _ => isFalse (by simp [h])
    | _, isFalse k => isFalse (by simp [k])
  | record fs, record gs =>
    match decEqFields fs gs with
    | isTrue h => isTrue (by rw [h])
    | isFalse h => isFalse (by simpa using h)
  | var a, var b => if h : a = b then isTrue (by rw [h]) else isFalse (by simpa using h)
  | int, pointer _ | int, function _ _ | int, record _ | int, var _
  | pointer _, int | pointer _, function _ _ | pointer _, record _ | pointer _, var _
  | function _ _, int | function _ _, pointer _ | function _ _, record _ | function _ _, var _
  | record _, int | record _, pointer _ | record _, function _ _ | record _, var _
  | var _, int | var _, pointer _ | var _, function _ _ | var _, record _ =>
    isFalse (fun h => Ty.noConfusion h)

/-- Lists of types are equal when they agree item by item. -/
def decEqAll : (as bs : List Ty) → Decidable (as = bs)
  | [], [] => isTrue rfl
  | a :: as, b :: bs =>
    match decEq a b, decEqAll as bs with
    | isTrue h, isTrue k => isTrue (by rw [h, k])
    | isFalse h, _ => isFalse (by simp [h])
    | _, isFalse k => isFalse (by simp [k])
  | [], _ :: _ | _ :: _, [] => isFalse (by simp)

/-- Lists of fields are equal when they agree in names and types, field by field. -/
def decEqFields : (fs gs : List (String × Ty)) → Decidable (fs = gs)
  | [], [] => isTrue rfl
  | (n, a) :: fs, (m, b) :: gs =>
    if h : n = m then
      match decEq a b, decEqFields fs gs with
      | isTrue k, isTrue l => isTrue (by rw [h, k, l])
      | isFalse k, _ => isFalse (by simp [k])
      | _, isFalse l => isFalse (by simp [l])
    else isFalse (by simp [h])
  | [], _ :: _ | _ :: _, [] => isFalse (by simp)

end

instance : DecidableEq Ty := decEq

mutual

/-- The written form of a type. -/
def text : Ty → String
  | int => "int"
  | pointer target => "&" ++ target.text
  | function params result => "(" ++ textAll params ++ ") -> " ++ result.text
  | record fields => "\x7b" ++ textFields fields ++ "\x7d"
  | var root => "?" ++ toString root

/-- Types written with commas between them. -/
def textAll : List Ty → String
  | [] => ""
  | [t] => t.text
  | t :: rest => t.text ++ "," ++ textAll rest

/-- Fields written with commas between them, each name before its type. -/
def textFields : List (String × Ty) → String
  | [] => ""
  | [(name, t)] => name ++ ":" ++ t.text
  | (name, t) :: rest => name ++ ":" ++ t.text ++ "," ++ textFields rest

end

mutual

/-- A type is resolved when no variable is left inside it. -/
def isResolved : Ty → Bool
  | int => true
  | pointer target => target.isResolved
  | function params result => isResolvedAll params && result.isResolved
  | record fields => isResolvedFields fields
  | var _ => false

/-- All types of a list are resolved. -/
def isResolvedAll : List Ty → Bool
  | [] => true
  | t :: rest => t.isResolved && isResolvedAll rest

/-- All fields of a record have resolved types. -/
def isResolvedFields : List (String × Ty) → Bool
  | [] => true
  | (_, t) :: rest => t.isResolved && isResolvedFields rest

end

mutual

/-- Types are compatible when they agree up to the order of record fields; a variable is
compatible with itself only. -/
def compatible : Ty → Ty → Bool
  | int, int => true
  | pointer a, pointer b => a.compatible b
  | function ps r, function qs s =>
    ps.length == qs.length && compatibleAll ps qs && r.compatible s
  | record fs, record gs => fs.length == gs.length && compatibleFields fs gs
  | var a, var b => a == b
  | _, _ => false

/-- The lists are compatible item by item, as far as both reach. -/
def compatibleAll : List Ty → List Ty → Bool
  | a :: as, b :: bs => a.compatible b && compatibleAll as bs
  | _, _ => true

/-- Every field on the left has a compatible first field of its name on the right. -/
def compatibleFields : List (String × Ty) → List (String × Ty) → Bool
  | [], _ => true
  | (name, a) :: fs, gs =>
    (match gs.lookup name with
      | some b => a.compatible b
      | none => false) && compatibleFields fs gs

end

end Ty

end TypeInference
