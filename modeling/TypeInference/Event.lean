import TypeInference.TypeError

/-!
# Events

The steps of inference that a log shows, in the order in which they happen.
-/

set_option autoImplicit false

namespace TypeInference

/-- How fine a detail an event is. -/
inductive Level
  | trace | debug
deriving DecidableEq, Repr, Inhabited

/-- The word that opens a line of the log. -/
def Level.text : Level → String
  | trace => "TRACE"
  | debug => "DEBUG"

/-- A step of inference worth a line in the log. -/
inductive Event
  | linked (child root : Handle)
  | bound (root : Handle) (shape : String)
  | clashed (conflict : Conflict) (span : Span)
  | entered (function : String)
  | defaulted (root : Handle)
  | finished (typed : Nat)
deriving DecidableEq, Repr, Inhabited

namespace Event

/-- Changes of the store are traced, all else is for debugging. -/
def level : Event → Level
  | linked .. | bound .. => .trace
  | _ => .debug

/-- How an event is worded. -/
def message : Event → String
  | linked child root => s!"link #{child} -> #{root}"
  | bound root shape => s!"bind #{root} := {shape}"
  | clashed c span => (TypeError.conflict c span).message
  | entered function => s!"checking function {function}"
  | defaulted root => s!"defaulting #{root} to int"
  | finished typed => s!"type checking finished: {typed} typed nodes"

/-- The line of the log. -/
def text (e : Event) : String := s!"{e.level.text} {e.message}"

end Event

end TypeInference
