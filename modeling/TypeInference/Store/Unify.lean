import TypeInference.Event
import TypeInference.Pairing
import TypeInference.Store.Reach
import TypeInference.Store.Render

/-!
# Unification

Equations between handles are solved one after the other. Each is decided by the roots of its two
sides: it holds already, one class is put below the other, or it is in conflict. Two bound classes
give further equations, between the handles inside their terms, which are solved next. The first
conflict ends the work and leaves the store as it then stands.
-/

set_option autoImplicit false

namespace TypeInference

/-- What two handles of an equation do to the store: nothing, one class joins another, two bound
classes merge and leave further equations, or they clash. -/
inductive Meeting
  | same
  | join (child root : Handle)
  | merge (child root : Handle) (parts : List Equation)
  | clash (conflict : Conflict)
deriving DecidableEq, Repr, Inhabited

/-- The outcome of work on a store: the store it leaves, what happened, and the conflict that ended
it early. -/
structure Report where
  store : Store
  events : List Event := []
  conflict? : Option Conflict := none
deriving Inhabited

namespace Report

/-- The report of work that starts with the given event. -/
def after (event : Event) (r : Report) : Report := { r with events := event :: r.events }

@[simp]
theorem store_after (event : Event) (r : Report) : (r.after event).store = r.store := rfl

@[simp]
theorem conflict?_after (event : Event) (r : Report) :
    (r.after event).conflict? = r.conflict? := rfl

/-- The report of a conflict. The store does not know where in the source its handles stand. -/
def failed (s : Store) (conflict : Conflict) : Report where
  store := s
  events := [.clashed conflict {}]
  conflict? := some conflict

end Report

namespace Store

/-- Two bound terms do not match. -/
def mismatch (s : Store) (reason : Reason) (x y : Handle) (t u : Term) : Conflict :=
  .mismatch reason x y (s.renderTerm t) (s.renderTerm u)

/-- A term would be bound to a class inside it. -/
def infinite (s : Store) (x root : Handle) (t : Term) : Conflict :=
  .infinite x (s.render root) (s.renderTerm t)

/-- Decide an equation. A bound root stays root over an unbound one, otherwise the lower handle
does, so the sides of an equation may be exchanged. -/
def meet (s : Store) (x y : Handle) : Meeting :=
  let a := s.find x
  let b := s.find y
  if a = b then .same
  else
    match s.terms[a]?, s.terms[b]? with
    | none, none => .join (max a b) (min a b)
    | some t, none => if s.occurs b t then .clash (s.infinite y b t) else .join b a
    | none, some u => if s.occurs a u then .clash (s.infinite x a u) else .join a b
    | some t, some u =>
      match t.pairUp u with
      | .error reason => .clash (s.mismatch reason x y t u)
      | .ok parts =>
        if s.occurs b t then .clash (s.infinite y b t)
        else if s.occurs a u then .clash (s.infinite x a u)
        else .merge (max a b) (min a b) parts

/-- Solve equations in order up to the first merge, which is handed on with the equations that are
then left. -/
def solveWith (merged : Store → List Equation → Report) (s : Store) : List Equation → Report
  | [] => { store := s }
  | (x, y) :: rest =>
    match s.meet x y with
    | .same => s.solveWith merged rest
    | .join child root => .after (.linked child root) ((s.link child root).solveWith merged rest)
    | .merge child root parts =>
      .after (.linked child root) (merged (s.link child root) (parts ++ rest))
    | .clash conflict => .failed s conflict

/-- Solve equations in order, with at most `merges` merges of two bound classes. -/
def solve : Nat → Store → List Equation → Report
  | 0, s, equations => s.solveWith (fun s _ => { store := s }) equations
  | merges + 1, s, equations => s.solveWith (solve merges) equations

/-- Solve equations in order. A merge leaves one bound class where there were two, so no store
needs more merges than it has terms. -/
def solveAll (s : Store) (equations : List Equation) : Report := solve s.terms.size s equations

/-- Make two handles denote one type. -/
def unify (s : Store) (x y : Handle) : Report := s.solveAll [(x, y)]

/-- Make a handle denote the type of a term: bind its class, or match the term bound already. -/
def bind (s : Store) (x : Handle) (t : Term) : Report :=
  let root := s.find x
  if s.occurs root t then .failed s (s.infinite x root t)
  else
    match s.terms[root]? with
    | none => { store := s.assign root t, events := [.bound root t.shape] }
    | some bound =>
      match bound.pairUp t with
      | .error reason => .failed s (s.mismatch reason x x bound t)
      | .ok parts => s.solveAll parts

end Store

end TypeInference
