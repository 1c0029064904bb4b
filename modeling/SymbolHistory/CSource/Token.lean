/-
# CSource.Token -- C files as tokens

Comments, blanks and line splices are passed over.  A directive of the
preprocessor ends with its line; the only one that matters is the definition of
a macro, which becomes one token.
-/
import SymbolHistory.Text.Bytes

set_option autoImplicit false

namespace SymbolHistory

namespace CSource

inductive TokenKind where
  /-- A name, keyword or number. -/
  | word (text : Bytes)
  /-- A string or character. -/
  | literal
  /-- A punctuation mark. -/
  | mark (byte : UInt8)
  /-- The definition of a macro. -/
  | define (name : Bytes)
  deriving Repr, DecidableEq

/-- A token and the number of the line it starts on. -/
structure Token where
  kind : TokenKind
  line : Nat
  deriving Repr, DecidableEq

def isWordByte (b : UInt8) : Bool :=
  Bytes.isDigit b || (65 ≤ b && b ≤ 90) || (97 ≤ b && b ≤ 122) || b == 95 || b == 36 || 128 ≤ b

/-- What follows a comment in the style of C, and the number of newlines in it. -/
def skipComment : Nat → Bytes → Nat × Bytes
  | newlines, 42 :: 47 :: rest => (newlines, rest)
  | newlines, 10 :: rest => skipComment (newlines + 1) rest
  | newlines, _ :: rest => skipComment newlines rest
  | newlines, [] => (newlines, [])

/-- What follows a comment that ends with its line, and the number of newlines in it: those that are
escaped. -/
def skipLine : Nat → Bytes → Nat × Bytes
  | newlines, 92 :: 13 :: 10 :: rest => skipLine (newlines + 1) rest
  | newlines, 92 :: 10 :: rest => skipLine (newlines + 1) rest
  | newlines, 10 :: rest => (newlines, 10 :: rest)
  | newlines, _ :: rest => skipLine newlines rest
  | newlines, [] => (newlines, [])

/-- What follows a literal, and the number of newlines in it.  It has to end on its line unless
newlines are escaped. -/
def skipLiteral (quote : UInt8) : Nat → Bytes → Option (Nat × Bytes)
  | newlines, 92 :: 13 :: 10 :: rest => skipLiteral quote (newlines + 1) rest
  | newlines, 92 :: 10 :: rest => skipLiteral quote (newlines + 1) rest
  | newlines, 92 :: _ :: rest => skipLiteral quote newlines rest
  | newlines, b :: rest =>
    if b == quote then some (newlines, rest)
    else if b == 10 then none
    else skipLiteral quote newlines rest
  | _, [] => none

/-- A file being read: the line number, whether only blanks stand on the line so far, the tokens
of the directive being read, and the tokens read, both last first. -/
structure Lexer where
  line : Nat := 1
  fresh : Bool := true
  directive : Option (List Token) := none
  tokens : List Token := []

namespace Lexer

def push (l : Lexer) (kind : TokenKind) : Lexer :=
  let t : Token := ⟨kind, l.line⟩
  match l.directive with
  | some ts => { l with directive := some (t :: ts), fresh := false }
  | none => { l with tokens := t :: l.tokens, fresh := false }

/-- The end of a directive: a definition becomes a token. -/
def endDirective (l : Lexer) : Lexer :=
  match l.directive.map List.reverse with
  | some (⟨.word d, _⟩ :: ⟨.word name, line⟩ :: _) =>
    if d == lit "define" then
      { l with directive := none, tokens := ⟨.define name, line⟩ :: l.tokens }
    else { l with directive := none }
  | _ => { l with directive := none }

def newline (l : Lexer) : Lexer :=
  { l.endDirective with line := l.line + 1, fresh := true }

def run : Nat → Lexer → Bytes → Lexer
  | 0, l, _ => l.endDirective
  | fuel + 1, l, s =>
    match s with
    | [] => l.endDirective
    | 10 :: rest => run fuel l.newline rest
    | 92 :: 10 :: rest => run fuel { l with line := l.line + 1 } rest
    | 92 :: 13 :: 10 :: rest => run fuel { l with line := l.line + 1 } rest
    | 47 :: 42 :: rest =>
      let (newlines, rest) := skipComment 0 rest
      run fuel { l with line := l.line + newlines } rest
    | 47 :: 47 :: rest =>
      let (newlines, rest) := skipLine 0 rest
      run fuel { l with line := l.line + newlines } rest
    | b :: rest =>
      if b == 32 || b == 9 || b == 11 || b == 12 || b == 13 then run fuel l rest
      else if b == 35 && l.fresh then
        run fuel { l with directive := some [], fresh := false } rest
      else if isWordByte b then
        let (word, rest) := s.span isWordByte
        run fuel (l.push (.word word)) rest
      else if b == 34 || b == 39 then
        match skipLiteral b 0 rest with
        | some (newlines, rest) =>
          let l := l.push .literal
          run fuel { l with line := l.line + newlines } rest
        | none => run fuel (l.push (.mark b)) rest
      else run fuel (l.push (.mark b)) rest

end Lexer

def tokens (s : Bytes) : List Token := (Lexer.run (s.length + 1) {} s).tokens.reverse

end CSource

end SymbolHistory
