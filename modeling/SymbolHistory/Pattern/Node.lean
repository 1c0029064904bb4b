/-
# Pattern.Node -- regular expressions as trees
-/
import SymbolHistory.Pattern.CharSet

set_option autoImplicit false

namespace SymbolHistory

namespace Pattern

inductive Assertion where
  | textStart
  | textEnd
  | lineStart
  | lineEnd
  | wordBoundary
  | notWordBoundary
  deriving Repr, DecidableEq

inductive Node where
  | empty
  | char (set : CharSet)
  | assertion (a : Assertion)
  | seq (a b : Node)
  | either (a b : Node)
  | group (index : Nat) (a : Node)
  | repeated (a : Node) (min : Nat) (max : Option Nat) (greedy : Bool)
  deriving Repr, DecidableEq

namespace Node

/-- Whether the expression may match without taking a character. -/
def nullable : Node → Bool
  | empty => true
  | char _ => false
  | assertion _ => true
  | seq a b => a.nullable && b.nullable
  | either a b => a.nullable || b.nullable
  | group _ a => a.nullable
  | repeated a min _ _ => min == 0 || a.nullable

def depth : Node → Nat
  | empty => 1
  | char _ => 1
  | assertion _ => 1
  | seq a b => max a.depth (b.depth + 1)
  | either a b => max a.depth (b.depth + 1)
  | group _ a => a.depth + 1
  | repeated a _ _ _ => a.depth + 1

/-- Counted repetitions inside one another multiply; their product stays within `limit`. -/
def repeatsWithin : Node → Nat → Bool
  | seq a b, limit => a.repeatsWithin limit && b.repeatsWithin limit
  | either a b, limit => a.repeatsWithin limit && b.repeatsWithin limit
  | group _ a, limit => a.repeatsWithin limit
  | repeated a min max _, limit =>
    match max with
    | some 0 => true
    | _ =>
      let count := max.getD min
      if limit < count then false
      else a.repeatsWithin (if count == 0 then limit else limit / count)
  | _, _ => true

def sequence (nodes : List Node) : Node :=
  match nodes with
  | [] => empty
  | first :: rest => rest.foldl seq first

/-- One of the expressions, earlier ones preferred. -/
def choice (nodes : List Node) : Node :=
  match nodes with
  | [] => empty
  | first :: rest => rest.foldl either first

end Node

end Pattern

end SymbolHistory
