import TypeInference.Store.Basic

/-!
# Types in diagnostics

The text of a type as diagnostics show it: written from left to right, and cut off with two dots
wherever a part would start after the text has reached its limit in UTF-8 bytes.
-/

set_option autoImplicit false

namespace TypeInference

/-- The number of bytes after which the parts of a type are no longer written. -/
def renderLimit : Nat := 200

/-- The text has reached the limit. -/
def isFull (out : String) : Bool := renderLimit ≤ out.utf8ByteSize

/-- Write items with commas between them, and two dots for those that remain once the text is
full. -/
def writeItems {α : Type} (write : String → α → String) (out : String) : List α → String
  | [] => out
  | [a] => write out a
  | a :: rest =>
    let out := write out a
    if isFull out then out ++ ",.." else writeItems write (out ++ ",") rest

/-- Write a term, given how the handles inside are written. -/
def Term.write (write : String → Handle → String) (out : String) : Term → String
  | .int => out ++ "int"
  | .pointer target => write (out ++ "&") target
  | .function params result => write (writeItems write (out ++ "(") params ++ ") -> ") result
  | .record fields =>
    writeItems (fun out (name, h) => write (out ++ name ++ ":") h) (out ++ "\x7b") fields ++ "\x7d"

namespace Store

/-- Write the type of a handle's class down to `depth` bound classes below each other. -/
def writeClass (s : Store) : Nat → String → Handle → String
  | depth, out, x =>
    if isFull out then out ++ ".."
    else
      match s.term? x, depth with
      | some t, depth + 1 => t.write (s.writeClass depth) out
      | _, _ => out ++ "?" ++ toString (s.find x)

/-- The type of a handle's class as diagnostics show it. -/
def render (s : Store) (x : Handle) : String := s.writeClass s.terms.size "" x

/-- A term as diagnostics show it. -/
def renderTerm (s : Store) (t : Term) : String := t.write (s.writeClass s.terms.size) ""

end Store

end TypeInference
