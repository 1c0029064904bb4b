/-
# Shell.Script -- shell scripts as data

A script is a list of commands.  A word is a sequence of pieces, each of which
is quoted or not: text, the value of a parameter, or the output of a command.
The commands of an embedded script are kept as text and read when they are run.
-/
import SymbolHistory.Text.Bytes

set_option autoImplicit false

namespace SymbolHistory

namespace Shell

/-- What is done with the value of a parameter. -/
inductive Treatment where
  /-- The value as it is. -/
  | plain
  /-- The number of its characters. -/
  | length
  /-- Another text if there is no value, or if it is empty and `orEmpty`. -/
  | default (orEmpty : Bool)
  /-- Another text if there is a value, and it is not empty if `orEmpty`. -/
  | instead (orEmpty : Bool)
  /-- Without what a pattern matches at its start. -/
  | dropStart (longest : Bool)
  /-- Without what a pattern matches at its end. -/
  | dropEnd (longest : Bool)
  deriving Repr, DecidableEq

def Treatment.isPattern : Treatment → Bool
  | dropStart _ | dropEnd _ => true
  | _ => false

inductive Piece where
  | text (s : Bytes) (quoted : Bool)
  | parameter (name : Bytes) (treatment : Treatment) (operand : List Piece) (quoted : Bool)
  | output (script : Bytes) (quoted : Bool)
  | arithmetic (expression : List Piece) (quoted : Bool)
  deriving Repr

abbrev Word := List Piece

inductive Direction where
  | write
  | append
  | read
  | duplicate
  | inline
  deriving Repr, DecidableEq

structure Redirect where
  stream : Nat
  direction : Direction
  target : Word
  deriving Repr

inductive Command where
  | simple (assignments : List (Bytes × Word)) (words : List Word)
  | redirected (body : Command) (redirects : List Redirect)
  | pipe (stages : List Command)
  | not (body : Command)
  | and (first second : Command)
  | or (first second : Command)
  | sequence (commands : List Command)
  | conditional (condition yes no : Command)
  | loop (wanted : Bool) (condition body : Command)
  | each (name : Bytes) (items : Option (List Word)) (body : Command)
  | select (subject : Word) (clauses : List (List Word × Command))
  | nested (body : Command)
  | define (name : Bytes) (body : Command)
  deriving Repr

def Command.nothing : Command := .sequence []

end Shell

end SymbolHistory
