/-
# Pattern.Parse -- reading regular expressions

The reader keeps one `Frame` per open group: the choices finished so far and
the sequence being read.  Every step takes at least one byte of the text, and
a refusal shows the part of the text that is wrong.  There is no limit here on
the size of an expression, only on its depth and on the numbers of its
repetitions.
-/
import SymbolHistory.Pattern.Node
import SymbolHistory.Pattern.Problem

set_option autoImplicit false

namespace SymbolHistory

namespace Pattern

/-- Results of reading: a value, or what is wrong. -/
abbrev Reading (α : Type) := Except Problem α

structure Options where
  anyCase : Bool := false
  /-- Line ends count for `^` and `$`. -/
  multiLine : Bool := false
  /-- The dot matches newlines. -/
  dotAll : Bool := false
  /-- Repetitions prefer less. -/
  lazy : Bool := false
  deriving Repr, DecidableEq

structure Frame where
  /-- The group's number; 0 for one that captures nothing. -/
  capture : Nat := 0
  /-- The options to return to when the group closes. -/
  outer : Options := {}
  /-- Finished choices, last first. -/
  choices : List Node := []
  /-- The sequence being read, last first. -/
  items : List Node := []
  deriving Repr

def Frame.close (f : Frame) : Node :=
  Node.choice (Node.sequence f.items.reverse :: f.choices).reverse

structure State where
  whole : Bytes
  options : Options := {}
  captures : Nat := 0
  top : Frame := {}
  below : List Frame := []
  /-- The text at the repetition just read, if the last step read one. -/
  lastRepeat : Option Bytes := none

def fail {α : Type} (flaw : Flaw) (shown : Bytes) : Reading α := .error ⟨flaw, shown⟩

/-- The part of `s` before its ending `rest`. -/
def upTo (s rest : Bytes) : Bytes := s.take (s.length - rest.length)

/-- The first character of `s` and the rest; at the end the replacement character. -/
def nextChar (s : Bytes) : Reading (Nat × Bytes) :=
  match s with
  | [] => .ok (Utf8.replacement, [])
  | b :: rest =>
    match Utf8.first b rest with
    | .char c bs => .ok (c, s.drop bs.length)
    | .broken _ => fail .invalidUtf8 s

/-- `s` is refused if some byte of it belongs to no character. -/
def checkUtf8 (s : Bytes) : Reading Unit :=
  let bad := (Utf8.pieces s).dropWhile (fun p => !p.isBroken)
  if bad.isEmpty then .ok () else fail .invalidUtf8 (bad.flatMap Piece.bytes)

def State.push (st : State) (n : Node) : State :=
  { st with top := { st.top with items := n :: st.top.items } }

def Options.set (o : Options) (s : CharSet) : CharSet := if o.anyCase then .anyCase s else s

def State.literal (st : State) (c : Nat) : State := st.push (.char (st.options.set (.single c)))

/-! ## Escapes -/

def isOctal (b : UInt8) : Bool := 48 ≤ b && b ≤ 55

def isAlphanumeric (c : Nat) : Bool :=
  (48 ≤ c && c ≤ 57) || (65 ≤ c && c ≤ 90) || (97 ≤ c && c ≤ 122)

def hexOf (c : Nat) : Option Nat := if c < 128 then Bytes.hexValue? c.toUInt8 else none

/-- Up to `n` octal digits read onto a value. -/
def octal : Nat → Nat → Bytes → Nat × Bytes
  | 0, value, s => (value, s)
  | _, value, [] => (value, [])
  | n + 1, value, b :: rest =>
    if isOctal b then octal n (value * 8 + (b.toNat - 48)) rest else (value, b :: rest)

/-- Hexadecimal digits up to a closing brace.  On failure, what is left of the text. -/
def bracedHex : Nat → Nat → Bool → Bytes → Reading (Except Bytes (Nat × Bytes))
  | 0, _, _, s => .ok (.error s)
  | fuel + 1, value, any, s =>
    if s.isEmpty then .ok (.error s)
    else do
      let (c, rest) ← nextChar s
      if c == 125 then pure (if any then .ok (value, rest) else .error rest)
      else
        match hexOf c with
        | none => pure (.error rest)
        | some v =>
          let value := value * 16 + v
          if value > CharSet.lastCode then pure (.error rest)
          else bracedHex fuel value true rest

/-- The character of an escape; `s` starts with a backslash. -/
def escapeChar (s : Bytes) : Reading (Nat × Bytes) := do
  let t := s.drop 1
  if t.isEmpty then fail .trailingBackslash []
  else
    let (c, t) ← nextChar t
    let refuse := fun (rest : Bytes) => fail .escapeSequence (upTo s rest)
    if 49 ≤ c && c ≤ 55 && !(t.head?.any isOctal) then refuse t
    else if 48 ≤ c && c ≤ 55 then pure (octal 2 (c - 48) t)
    else if c == 120 then
      if t.isEmpty then refuse t
      else
        let (d, t) ← nextChar t
        if d == 123 then
          match ← bracedHex (t.length + 1) 0 false t with
          | .ok r => pure r
          | .error rest => refuse rest
        else
          let (e, t) ← nextChar t
          match hexOf d, hexOf e with
          | some x, some y => pure (x * 16 + y, t)
          | _, _ => refuse t
    else if c == 97 then pure (7, t)
    else if c == 102 then pure (12, t)
    else if c == 110 then pure (10, t)
    else if c == 114 then pure (13, t)
    else if c == 116 then pure (9, t)
    else if c == 118 then pure (11, t)
    else if c < 128 && !isAlphanumeric c then pure (c, t)
    else refuse t

/-! ## Character classes -/

/-- A named set as the options make it, or its complement. -/
def Options.named (o : Options) (s : CharSet × Bool) : CharSet :=
  if s.2 then o.set s.1 else .complement (o.set s.1)

/-- A set named by a property; `s` starts with a backslash and `p` or `P` if there is one. -/
def property (o : Options) (s : Bytes) : Reading (Option (CharSet × Bytes)) :=
  match s with
  | 92 :: p :: t =>
    if p != 112 && p != 80 then .ok none
    else do
      let (c, afterChar) ← nextChar t
      let (shown, name, rest) ←
        if c != 123 then
          let shown := upTo s afterChar
          pure (shown, shown.drop 2, afterChar)
        else
          match Bytes.cutByte 125 s with
          | none => do
            checkUtf8 s
            fail .charRange s
          | some (front, rest) => do
            checkUtf8 (front.drop 3)
            pure (front ++ [125], front.drop 3, rest)
      let (name, positive) :=
        match name with
        | 94 :: name => (name, p == 80)
        | _ => (name, p == 112)
      match CharSet.ofProperty? name with
      | none => fail .charRange shown
      | some set => pure (some (o.named (set, positive), rest))
  | _ => .ok none

def letterClass (o : Options) (s : Bytes) : Option (CharSet × Bytes) :=
  match s with
  | 92 :: b :: rest => (CharSet.ofLetter? b).map (fun set => (o.named set, rest))
  | _ => none

def bracketClass (o : Options) (s : Bytes) : Reading (Option (CharSet × Bytes)) :=
  match s with
  | 91 :: 58 :: t =>
    match Bytes.cut [58, 93] t with
    | none => .ok none
    | some (name, rest) =>
      match CharSet.ofBracketName? name with
      | none => fail .charRange (upTo s rest)
      | some set => .ok (some (o.named set, rest))
  | _ => .ok none

def classChar (whole s : Bytes) : Reading (Nat × Bytes) :=
  match s with
  | [] => fail .unclosedClass whole
  | 92 :: _ => escapeChar s
  | _ => nextChar s

/-- A character or a range of a class. -/
def classRange (o : Options) (whole s : Bytes) : Reading (CharSet × Bytes) := do
  let (lo, t) ← classChar whole s
  match t with
  | 45 :: b :: more =>
    if b == 93 then pure (o.set (.range lo lo), t)
    else
      let (hi, rest) ← classChar whole (b :: more)
      if hi < lo then fail .charRange (upTo s rest)
      else pure (o.set (.range lo hi), rest)
  | _ => pure (o.set (.range lo lo), t)

/-- The rest of a class after its opening; a bracket that comes first does not close it. -/
def classItems (o : Options) (whole : Bytes) :
    Nat → Bool → CharSet → Bytes → Reading (CharSet × Bytes)
  | 0, _, _, _ => fail .unclosedClass whole
  | fuel + 1, first, set, s =>
    match s, first with
    | 93 :: rest, false => .ok (set, rest)
    | _, _ => do
      if let some (named, rest) ← bracketClass o s then
        classItems o whole fuel false (.union set named) rest
      else if let some (named, rest) ← property o s then
        classItems o whole fuel false (.union set named) rest
      else if let some (named, rest) := letterClass o s then
        classItems o whole fuel false (.union set named) rest
      else
        let (range, rest) ← classRange o whole s
        classItems o whole fuel false (.union set range) rest

/-- A class in brackets; `s` starts with its opening. -/
def bracketed (o : Options) (s : Bytes) : Reading (CharSet × Bytes) :=
  match s.drop 1 with
  | 94 :: t => do
    let (set, rest) ← classItems o s (s.length + 1) true .none t
    pure (.complement set, rest)
  | t => classItems o s (s.length + 1) true .none t

/-! ## Repetitions -/

/-- A decimal count without leading zeros; `none` in the value when it is too large to matter. -/
def count (s : Bytes) : Option (Option Nat × Bytes) :=
  let (digits, rest) := s.span Bytes.isDigit
  match digits with
  | [] => none
  | 48 :: _ :: _ => none
  | _ =>
    let n := digits.foldl (fun n b => n * 10 + (b.toNat - 48)) 0
    some (if digits.length > 9 then none else some n, rest)

/-- Counts in braces: least and greatest number, each absent when it is too large. -/
structure Bounds where
  min : Option Nat
  max : Option (Option Nat)
  deriving Repr

/-- Counts in braces; `s` starts with the brace. -/
def bounds (s : Bytes) : Option (Bounds × Bytes) := do
  let (min, t) ← count (s.drop 1)
  match t with
  | 44 :: 125 :: rest => pure (⟨min, none⟩, rest)
  | 44 :: more =>
    let (max, t) ← count more
    match t with
    | 125 :: rest => pure (⟨min, some max⟩, rest)
    | _ => none
  | 125 :: rest => pure (⟨min, some min⟩, rest)
  | _ => none

def countLimit : Nat := 1000

/-- Apply a repetition to the item read last.  `before` is the text from the repetition on,
`after` the text that follows its mark. -/
def State.repeated (st : State) (min : Nat) (max : Option Nat) (counted : Bool)
    (before after : Bytes) : Reading (State × Bytes) :=
  let (swap, after) :=
    match after with
    | 63 :: rest => (true, rest)
    | _ => (false, after)
  match st.lastRepeat with
  | some last => fail .nestedRepeat (upTo last after)
  | none =>
    match st.top.items with
    | [] => fail .nothingToRepeat (upTo before after)
    | item :: items =>
      let n := Node.repeated item min max (st.options.lazy == swap)
      if counted && (2 ≤ min || max.any (2 ≤ ·)) && !n.repeatsWithin countLimit then
        fail .repeatCount (upTo before after)
      else
        .ok ({ st with top := { st.top with items := n :: items }, lastRepeat := some before },
          after)

/-! ## Groups -/

def isNameChar (b : UInt8) : Bool := b == 95 || isAlphanumeric b.toNat

def State.openGroup (st : State) (capture : Nat) (inner : Options) : State :=
  { st with options := inner, below := st.top :: st.below,
            top := { capture := capture, outer := st.options } }

def State.openCapture (st : State) : State :=
  let n := st.captures + 1
  ({ st with captures := n }).openGroup n st.options

/-- A named group; `s` is the text from its parenthesis on and `lead` the length before the name. -/
def namedGroup (st : State) (s : Bytes) (lead : Nat) : Reading (State × Bytes) :=
  match Bytes.cutByte 62 s with
  | none => do
    checkUtf8 s
    fail .groupName s
  | some (front, rest) => do
    let name := front.drop lead
    checkUtf8 name
    if name.isEmpty || !name.all isNameChar then fail .groupName (front ++ [62])
    else pure (st.openCapture, rest)

def Options.switch (o : Options) (letter : Nat) (on : Bool) : Option Options :=
  if letter == 105 then some { o with anyCase := on }
  else if letter == 109 then some { o with multiLine := on }
  else if letter == 115 then some { o with dotAll := on }
  else if letter == 85 then some { o with lazy := on }
  else none

/-- Options after a parenthesis and question mark; `s` is the text from the parenthesis on, `on`
whether options are being set, `seen` whether one was named since the sign changed. -/
def groupOptions (st : State) (s : Bytes) :
    Nat → Options → Bool → Bool → Bytes → Reading (State × Bytes)
  | 0, _, _, _, t => fail .groupOption (upTo s t)
  | fuel + 1, o, on, seen, t =>
    if t.isEmpty then fail .groupOption (upTo s t)
    else do
      let (c, t) ← nextChar t
      match o.switch c on with
      | some o => groupOptions st s fuel o on true t
      | none =>
        if c == 45 && on then groupOptions st s fuel o false false t
        else if (c == 58 || c == 41) && (on || seen) then
          if c == 58 then pure (st.openGroup 0 o, t)
          else pure ({ st with options := o }, t)
        else fail .groupOption (upTo s t)

def specialGroup (st : State) (s : Bytes) : Reading (State × Bytes) :=
  match s.drop 2 with
  | 80 :: 60 :: _ :: _ => namedGroup st s 4
  | 60 :: _ :: _ => namedGroup st s 3
  | t => groupOptions st s (t.length + 1) st.options true false t

def State.closeGroup (st : State) : Reading State :=
  match st.below with
  | [] => fail .strayClose st.whole
  | frame :: below =>
    let body := st.top.close
    let node := if st.top.capture == 0 then body else .group st.top.capture body
    .ok (({ st with options := st.top.outer, top := frame, below := below }).push node)

/-! ## The whole expression -/

/-- Literal characters. -/
def State.literals (st : State) (s : Bytes) : Reading State := do
  checkUtf8 s
  pure ((Utf8.codes s).foldl State.literal st)

def escaped (st : State) (s : Bytes) : Reading (State × Bytes) :=
  let simple := fun (a : Assertion) => .ok (st.push (.assertion a), s.drop 2)
  match s.drop 1 with
  | 65 :: _ => simple .textStart
  | 98 :: _ => simple .wordBoundary
  | 66 :: _ => simple .notWordBoundary
  | 67 :: _ => fail .escapeSequence (s.take 2)
  | 122 :: _ => simple .textEnd
  | 81 :: t => do
    let (quoted, rest) := (Bytes.cut [92, 69] t).getD (t, [])
    pure (← st.literals quoted, rest)
  | _ => do
    if let some (set, rest) ← property st.options s then pure (st.push (.char set), rest)
    else if let some (set, rest) := letterClass st.options s then
      pure (st.push (.char set), rest)
    else
      let (c, rest) ← escapeChar s
      pure (st.literal c, rest)

/-- One step: what starts with the byte `b`, where `s` is the text from that byte on. -/
def step (st : State) (b : UInt8) (s : Bytes) : Reading (State × Bytes) :=
  let rest := s.drop 1
  let quiet := { st with lastRepeat := none }
  if b == 40 then
    if rest.head? == some 63 then specialGroup quiet s else .ok (quiet.openCapture, rest)
  else if b == 124 then
    .ok ({ quiet with
      top := { st.top with choices := Node.sequence st.top.items.reverse :: st.top.choices,
                           items := [] } }, rest)
  else if b == 41 then do pure (← quiet.closeGroup, rest)
  else if b == 94 then
    .ok (quiet.push (.assertion (if st.options.multiLine then .lineStart else .textStart)), rest)
  else if b == 36 then
    .ok (quiet.push (.assertion (if st.options.multiLine then .lineEnd else .textEnd)), rest)
  else if b == 46 then
    .ok (quiet.push (.char (if st.options.dotAll then .everything
      else .complement (.single 10))), rest)
  else if b == 91 then do
    let (set, rest) ← bracketed st.options s
    pure (quiet.push (.char set), rest)
  else if b == 42 then st.repeated 0 none false s rest
  else if b == 43 then st.repeated 1 none false s rest
  else if b == 63 then st.repeated 0 (some 1) false s rest
  else if b == 123 then
    match bounds s with
    | none => .ok (quiet.literal 123, rest)
    | some (bound, after) =>
      match bound.min, bound.max with
      | some min, none =>
        if countLimit < min then fail .repeatCount (upTo s after)
        else st.repeated min none true s after
      | some min, some (some max) =>
        if countLimit < min || countLimit < max || max < min then
          fail .repeatCount (upTo s after)
        else st.repeated min (some max) true s after
      | _, _ => fail .repeatCount (upTo s after)
  else if b == 92 then escaped quiet s
  else do
    let (c, rest) ← nextChar s
    pure (quiet.literal c, rest)

def steps : Nat → State → Bytes → Reading State
  | 0, st, _ => .ok st
  | fuel + 1, st, s =>
    match s with
    | [] => .ok st
    | b :: _ => do
      let (st, rest) ← step st b s
      steps fuel st rest

def depthLimit : Nat := 1000

/-- Read a regular expression: its tree and the number of groups that capture. -/
def parse (s : Bytes) : Reading (Node × Nat) := do
  let st ← steps (s.length + 1) { whole := s } s
  if !st.below.isEmpty then fail .unclosedGroup s
  else
    let n := st.top.close
    if depthLimit < n.depth then fail .tooDeep s else pure (n, st.captures)

end Pattern

end SymbolHistory
