import TypeInference.Span

/-!
# Handles and the node table

Every node of a program tree is known by a handle, its row number in the node table.
Inference mints further handles at the end of the table for types that no node carries.
-/

set_option autoImplicit false

namespace TypeInference

/-- The number of a node, which is also the name of its type. -/
abbrev Handle := Nat

/-- What a node of the tree is; `fresh` is a handle minted during inference. -/
inductive NodeKind
  | program | function | formal | localVar
  | declare | block | assign | loop | branch | output | error | ret
  | num | var | binary | call | input | alloc | addrOf | deref | null | record | field | access
  | fresh
deriving DecidableEq, Repr, Inhabited

namespace NodeKind

/-- A node is typed when it denotes a value: functions, names, record fields and expressions. -/
def isTyped : NodeKind → Bool
  | program | declare | block | assign | loop | branch | output | error | ret | fresh => false
  | _ => true

/-- The word that diagnostics use for a kind of node. -/
def text : NodeKind → String
  | program => "program"
  | function => "function"
  | formal => "formal"
  | localVar => "local"
  | declare => "declaration"
  | block => "block"
  | assign => "assignment"
  | loop => "while"
  | branch => "if"
  | output => "output"
  | error => "error"
  | ret => "return"
  | num => "number"
  | var => "variable"
  | binary => "binary operation"
  | call => "call"
  | input => "input"
  | alloc => "alloc"
  | addrOf => "address-of"
  | deref => "dereference"
  | null => "null"
  | record => "record"
  | field => "record field"
  | access => "field access"
  | fresh => "type variable"

end NodeKind

/-- A row of the node table: what a handle stands for. -/
structure NodeInfo where
  kind : NodeKind
  span : Span := {}
  name : Option String := none
deriving DecidableEq, Repr, Inhabited

/-- The rows of all handles given out so far, in handle order. -/
structure NodeTable where
  rows : Array NodeInfo := #[]
deriving DecidableEq, Repr, Inhabited

namespace NodeTable

/-- The number of handles given out. -/
def size (table : NodeTable) : Nat := table.rows.size

/-- No handle has been given out. -/
def isEmpty (table : NodeTable) : Bool := table.size == 0

/-- The row of a handle that the table holds. -/
def get? (table : NodeTable) (h : Handle) : Option NodeInfo := table.rows[h]?

/-- The row of a handle. A handle that the table does not hold counts as a minted one without a
place. -/
def get (table : NodeTable) (h : Handle) : NodeInfo := (table.get? h).getD { kind := .fresh }

/-- The handle that the next minted row gets. -/
def next (table : NodeTable) : Handle := table.size

/-- Mint the handle `table.next`, which belongs to no node of the tree. -/
def mint (table : NodeTable) (span : Span) : NodeTable :=
  { rows := table.rows.push { kind := .fresh, span } }

@[simp]
theorem size_mint (table : NodeTable) (span : Span) : (table.mint span).size = table.size + 1 := by
  simp [mint, size]

/-- Minting keeps every row there is. -/
theorem get?_mint_of_lt (table : NodeTable) (span : Span) {h : Handle} (lt : h < table.size) :
    (table.mint span).get? h = table.get? h := by
  simp only [size] at lt
  simp [mint, get?, Array.getElem?_push_lt, lt]

/-- The handles of typed nodes, in handle order. -/
def typed (table : NodeTable) : List Handle :=
  (List.range table.size).filter fun h => (table.get h).kind.isTyped

end NodeTable

end TypeInference
