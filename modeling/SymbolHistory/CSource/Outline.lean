/-
# CSource.Outline -- a plain grammar

Files are read as a list of items: definitions of macros, and declarations and
definitions of functions with their declarators.  Whatever is in brackets is
passed over.  So the trees have the nodes that symbols come from and no others.
-/
import SymbolHistory.CSource.Declarator
import SymbolHistory.CSource.Scan

set_option autoImplicit false

namespace SymbolHistory

namespace CSource

structure Specifiers where
  hasType : Bool := false
  isExternal : Bool := false
  isTypedef : Bool := false
  deriving Repr, DecidableEq

/-- Words that are types by themselves. -/
def isBasicType (w : Bytes) : Bool :=
  [lit "void", lit "char", lit "short", lit "int", lit "long", lit "float", lit "double",
    lit "signed", lit "unsigned", lit "_Bool", lit "_Complex", lit "__signed__"].contains w

def isStorage (w : Bytes) : Bool :=
  [lit "static", lit "register", lit "auto", lit "inline", lit "__inline", lit "__inline__",
    lit "__forceinline", lit "_Noreturn", lit "noreturn", lit "_Thread_local",
    lit "thread_local", lit "__thread"].contains w

def isAggregate (w : Bytes) : Bool := [lit "struct", lit "union", lit "enum"].contains w

def isTypeQuery (w : Bytes) : Bool := [lit "typeof", lit "__typeof__", lit "typeof_unqual"].contains w

/-- Words with a meaning of their own in front of declarators. -/
def isSpecifier (w : Bytes) : Bool :=
  w == lit "extern" || w == lit "typedef" || isStorage w || isQualifier w || isAnnotated w ||
    isBasicType w || isAggregate w || isTypeQuery w

/-- A name comes next.  The word in front of a name is not the declared name itself. -/
def startsWithName (ts : List Token) : Bool :=
  ts.head?.any fun t => match t.kind with | .word w => !isSpecifier w | _ => false

/-- The members of a structure, union or enumeration after its keyword. -/
def skipAggregate : Nat → List Token → List Token
  | 0, ts => ts
  | fuel + 1, ts =>
    match ts with
    | ⟨.mark 123, _⟩ :: rest => skipGroup 0 rest
    | ⟨.word w, _⟩ :: rest =>
      if isAnnotated w then skipAggregate fuel (skipParens rest)
      else
        match rest with
        | ⟨.mark 123, _⟩ :: rest => skipGroup 0 rest
        | _ => rest
    | _ => ts

def specifiers : Nat → Specifiers → List Token → Specifiers × List Token
  | 0, s, ts => (s, ts)
  | fuel + 1, s, ts =>
    match ts with
    | ⟨.word w, _⟩ :: rest =>
      if w == lit "extern" then specifiers fuel { s with isExternal := true } rest
      else if w == lit "typedef" then specifiers fuel { s with isTypedef := true } rest
      else if isStorage w then specifiers fuel s rest
      else if w == lit "_Atomic" && (rest.head?.any (fun t => t.kind == .mark 40)) then
        specifiers fuel { s with hasType := true } (skipParens rest)
      else if isQualifier w then specifiers fuel s rest
      else if isAnnotated w then specifiers fuel s (skipParens rest)
      else if isBasicType w then specifiers fuel { s with hasType := true } rest
      else if isAggregate w then
        specifiers fuel { s with hasType := true } (skipAggregate (rest.length + 1) rest)
      else if isTypeQuery w then
        specifiers fuel { s with hasType := true } (skipParens rest)
      else if s.hasType && !startsWithName rest then (s, ts)
      else specifiers fuel { s with hasType := true } rest
    | _ => (s, ts)

/-- The text of an initial value, up to the comma or semicolon that ends it. -/
def skipValue : Nat → List Token → List Token
  | _, [] => []
  | 0, ⟨.mark 44, line⟩ :: rest => ⟨.mark 44, line⟩ :: rest
  | 0, ⟨.mark 59, line⟩ :: rest => ⟨.mark 59, line⟩ :: rest
  | depth, ⟨.mark b, _⟩ :: rest =>
    if opens b then skipValue (depth + 1) rest
    else if closes b then skipValue (depth - 1) rest
    else skipValue depth rest
  | depth, _ :: rest => skipValue depth rest

/-- What follows the next semicolon outside brackets. -/
def skipDeclaration (ts : List Token) : Nat → List Token
  | 0 => ts
  | fuel + 1 =>
    match skipValue 0 ts with
    | ⟨.mark 44, _⟩ :: rest => skipDeclaration rest fuel
    | _ :: rest => rest
    | [] => []

/-- What a list of declarators ends with. -/
inductive Ending where
  | declaration
  | body
  deriving Repr, DecidableEq

/-- The declarators of a declaration, last first, how they end, and what follows. -/
def declarators : Nat → List Declarator → List Token → List Declarator × Ending × List Token
  | 0, done, ts => (done, .declaration, ts)
  | fuel + 1, done, ts =>
    match declarator (ts.length + 1) ts with
    | none => (done, .declaration, skipDeclaration ts (ts.length + 1))
    | some (d, rest) =>
      match rest with
      | ⟨.mark 44, _⟩ :: rest => declarators fuel (d :: done) rest
      | ⟨.mark 59, _⟩ :: rest => (d :: done, .declaration, rest)
      | ⟨.mark 61, _⟩ :: rest =>
        match skipValue 0 rest with
        | ⟨.mark 44, _⟩ :: rest => declarators fuel (.init d :: done) rest
        | _ :: rest => (.init d :: done, .declaration, rest)
        | [] => (.init d :: done, .declaration, [])
      | [] => (d :: done, .declaration, [])
      | rest =>
        -- a body, possibly after the declarations of parameters in the old style
        match rest.dropWhile (fun t => t.kind != .mark 123) with
        | _ :: body => (d :: done, .body, skipGroup 0 body)
        | [] => (d :: done, .declaration, [])

/-- The node of a definition or declaration. -/
def item (s : Specifiers) (ds : List Declarator) (ending : Ending) : Node :=
  let (type, ds) := match ending with
    | .body => (NodeType.definition, ds.getLast?.toList)
    | .declaration => (NodeType.declaration, ds)
  let type := if s.isTypedef then lit "type_definition" else type
  let storage : List Node :=
    if s.isExternal then [⟨NodeType.storage, lit "extern", 0, []⟩] else []
  ⟨type, [], 0, storage ++ ds.map Declarator.node⟩

/-- Only groups in brackets stand between here and the next semicolon, and no type in them. -/
def isArguments : Nat → List Token → Bool
  | 0, ⟨.mark 59, _⟩ :: _ => true
  | _, [] => false
  | depth, ⟨.mark b, _⟩ :: rest =>
    if b == 40 || b == 91 then isArguments (depth + 1) rest
    else if depth == 0 || b == 123 || b == 125 then false
    else isArguments (if closes b then depth - 1 else depth) rest
  | depth, ⟨.word w, _⟩ :: rest =>
    if depth == 0 || isBasicType w || isAggregate w || isQualifier w then false
    else isArguments depth rest
  | depth, _ :: rest => depth != 0 && isArguments depth rest

/-- A name applied to arguments, which declares nothing. -/
def isCall : List Token → Bool
  | ⟨.word w, _⟩ :: ⟨.mark 40, line⟩ :: rest =>
    !isSpecifier w && isArguments 0 (⟨.mark 40, line⟩ :: rest)
  | _ => false

/-- What follows the definition or declaration at the start of the tokens, or the group of them. -/
def skipItem (ts : List Token) : List Token :=
  match ts with
  | ⟨.mark 123, _⟩ :: rest => skipGroup 0 rest
  | _ =>
    let (_, rest) := specifiers (ts.length + 1) {} ts
    match rest with
    | ⟨.mark 59, _⟩ :: rest => rest
    | _ => (declarators (rest.length + 1) [] rest).2.2

def macroNode (name : Bytes) (line : Nat) : Node :=
  ⟨lit "preproc_def", [], UInt32.ofNat (line - 1), [(Declarator.name name line).node]⟩

/-- The nodes at file scope; those made stand last first. -/
def fileScope : Nat → List Node → List Token → List Node
  | 0, done, _ => done.reverse
  | fuel + 1, done, ts =>
    match ts with
    | [] => done.reverse
    | ⟨.define name, line⟩ :: rest => fileScope fuel (macroNode name line :: done) rest
    | ⟨.mark b, _⟩ :: rest =>
      if opens b then fileScope fuel done (skipGroup 0 rest) else fileScope fuel done rest
    | ⟨.literal, _⟩ :: rest => fileScope fuel done rest
    | ⟨.word _, _⟩ :: _ =>
      if isCall ts then fileScope fuel done (skipDeclaration ts (ts.length + 1)) else
      let (s, rest) := specifiers (ts.length + 1) {} ts
      match rest with
      | ⟨.mark 59, _⟩ :: rest => fileScope fuel done rest
      | ⟨.literal, _⟩ :: rest => fileScope fuel done (skipItem rest)
      | ⟨.mark 123, _⟩ :: rest => fileScope fuel done (skipGroup 0 rest)
      | _ =>
        let (ds, ending, after) := declarators (rest.length + 1) [] rest
        fileScope fuel (item s ds.reverse ending :: done) after

namespace Grammar

/-- The grammar of plain files: it goes by brackets and keywords, and never fails. -/
def plain : Grammar where
  parse source :=
    let ts := tokens source
    .ok ⟨lit "translation_unit", [], 0, fileScope (ts.length + 1) [] ts⟩
  isName type := type == NodeType.identifier

end Grammar

def scan (source : Bytes) : List Tag := Grammar.plain.found source

end CSource

end SymbolHistory
