/-
# CSource.Scan -- the symbols of a C file

Functions that are defined, macros, and variables at file scope that are not
`extern`, in the order of the file.  Both branches of conditional compilation
count; bodies of functions do not.
-/
import SymbolHistory.CSource.Tree
import SymbolHistory.Symbol

set_option autoImplicit false

namespace SymbolHistory

namespace CSource

structure Tag where
  name : Bytes
  line : Nat
  kind : SymbolKind
  deriving Repr, DecidableEq

/-- The line of a table for a symbol of the file `path`. -/
def Tag.tableLine (path : Bytes) (t : Tag) : Bytes :=
  Bytes.join [Symbol.tab] [t.name, path, Decimal.ofNat t.line ++ lit ";\"", t.kind.code]

namespace Node

def tag (kind : SymbolKind) (n : Node) : Tag := ⟨n.text, n.line, kind⟩

/-- The name that a declarator declares. -/
def declaredName (isName : Bytes → Bool) (n : Node) : Option Node :=
  n.chain.find? fun d =>
    d.type == NodeType.identifier || (isName d.type && d.type != NodeType.typeIdentifier)

/-- A declarator declares a function, not a variable: any pointers, and then a parameter list that
stands directly behind a name. -/
def isPrototype (n : Node) : Bool :=
  match n.chain.dropWhile (fun d => d.type == NodeType.pointer) with
  | f :: inner :: _ => f.type == NodeType.function && inner.type == NodeType.identifier
  | _ => false

def isExtern (n : Node) : Bool := n.type == NodeType.storage && n.text == lit "extern"

def variableOf? (isName : Bytes → Bool) (d : Node) : Option Tag :=
  if d.isPrototype then none else (d.declaredName isName).map (tag .variable)

/-- The variables that a declaration at file scope defines: none if it is external. -/
def scanDeclaration (isName : Bytes → Bool) (n : Node) : List Tag :=
  if n.children.any isExtern then []
  else (n.children.filter isDeclarator).filterMap (variableOf? isName)

mutual

def scanItem (isName : Bytes → Bool) : Node → List Tag
  | ⟨type, text, row, children⟩ =>
    let n : Node := ⟨type, text, row, children⟩
    if type == NodeType.definition then
      ((n.childOfType NodeType.declarators).bind (declaredName isName)).toList.map (tag .function)
    else if NodeType.macros.contains type then
      (n.childOfType [NodeType.identifier]).toList.map (tag .define)
    else if type == NodeType.declaration then n.scanDeclaration isName
    else if NodeType.conditions.contains type then scanScope isName children
    else []

def scanScope (isName : Bytes → Bool) : List Node → List Tag
  | [] => []
  | item :: rest => item.scanItem isName ++ scanScope isName rest

end

theorem scanScope_eq (isName : Bytes → Bool) (items : List Node) :
    scanScope isName items = items.flatMap (scanItem isName) := by
  induction items with
  | nil => rfl
  | cons item rest ih => rw [scanScope, ih, List.flatMap_cons]

end Node

namespace Grammar

/-- The symbols of a C file; nothing is in an empty one. -/
def scan (g : Grammar) (source : Bytes) : Except Fault (List Tag) :=
  if source.isEmpty then .ok []
  else
    match g.parse source with
    | .ok root => .ok (Node.scanScope g.isName root.children)
    | .error f => .error (.during (lit "parse") f)

/-- What is found in a file; nothing if it cannot be parsed. -/
def found (g : Grammar) (source : Bytes) : List Tag :=
  match g.scan source with
  | .ok tags => tags
  | .error _ => []

end Grammar

end CSource

end SymbolHistory
