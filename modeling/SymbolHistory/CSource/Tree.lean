/-
# CSource.Tree -- C files as trees

A grammar of C turns a file into a tree of nodes, each with a type, the text it
covers and the row it starts on.  Punctuation and keywords have no nodes of their
own here: only the named ones are kept.

Which trees a grammar makes is not said.  It is a parser of its own, and may fail.
-/
import SymbolHistory.Fault

set_option autoImplicit false

namespace SymbolHistory

namespace CSource

/-- A node of a tree.  Rows count from 0. -/
structure Node where
  type : Bytes
  text : Bytes
  row : UInt32
  children : List Node
  deriving Repr

structure Grammar where
  parse : Bytes → Except Fault Node
  /-- Types of nodes that are names. -/
  isName : Bytes → Bool

/-! ## Types of nodes -/

namespace NodeType

def identifier : Bytes := lit "identifier"

def typeIdentifier : Bytes := lit "type_identifier"

def pointer : Bytes := lit "pointer_declarator"

def function : Bytes := lit "function_declarator"

def array : Bytes := lit "array_declarator"

def parens : Bytes := lit "parenthesized_declarator"

def init : Bytes := lit "init_declarator"

/-- What can stand between a declaration and the name that it declares. -/
def declarators : List Bytes := [identifier, pointer, function, array, parens, init]

def definition : Bytes := lit "function_definition"

def declaration : Bytes := lit "declaration"

def storage : Bytes := lit "storage_class_specifier"

def macros : List Bytes := [lit "preproc_def", lit "preproc_function_def"]

/-- What is compiled on a condition. -/
def conditions : List Bytes :=
  ["preproc_if", "preproc_ifdef", "preproc_else", "preproc_elif", "preproc_elifdef"].map lit

end NodeType

namespace Node

def isDeclarator (n : Node) : Bool := NodeType.declarators.contains n.type

/-- The number of the line that a node starts on. -/
def line (n : Node) : Nat := n.row.toNat + 1

def childOfType (n : Node) (types : List Bytes) : Option Node :=
  n.children.find? fun child => types.contains child.type

mutual

/-- A node and the declarators below it, from the outside to the name: each is the first declarator
among the children of the one before.  Array sizes, initial values and parameters come after it. -/
def chain : Node → List Node
  | ⟨type, text, row, children⟩ => ⟨type, text, row, children⟩ :: chainBelow children

def chainBelow : List Node → List Node
  | [] => []
  | child :: rest => if child.isDeclarator then child.chain else chainBelow rest

end

theorem chain_eq (n : Node) : n.chain = n :: chainBelow n.children := by
  cases n
  rw [chain]

theorem chainBelow_eq (children : List Node) :
    chainBelow children = ((children.find? isDeclarator).map chain).getD [] := by
  induction children with
  | nil => rfl
  | cons child rest ih =>
      rw [chainBelow, List.find?_cons]
      cases child.isDeclarator with
      | true => rfl
      | false => exact ih

/-- The chain goes on at the first child that is a declarator. -/
theorem chain_of_childOfType {n inner : Node} (next : n.childOfType NodeType.declarators = some inner) :
    n.chain = n :: inner.chain := by
  rw [chain_eq, chainBelow_eq, show n.children.find? isDeclarator = some inner from next]
  rfl

end Node

end CSource

end SymbolHistory
