/-
# Shell.Parse -- reading shell scripts

One function per production.  Each takes the text ahead and gives what it read
with the text after it, or `none` where the text is no script.
-/
import SymbolHistory.Shell.Script

set_option autoImplicit false

namespace SymbolHistory

namespace Shell

/-- What a production read and the text after it. -/
abbrev Reading (α : Type) := Option (α × Bytes)

/-! ## Characters -/

def isBlank (b : UInt8) : Bool := b == 32 || b == 9

/-- Bytes that end an unquoted word: blanks, newlines and `;&|()<>`. -/
def isDelimiter (b : UInt8) : Bool :=
  isBlank b || b == 10 || b == 59 || b == 38 || b == 124 || b == 40 || b == 41 || b == 60 || b == 62

def isNameStart (b : UInt8) : Bool := (65 ≤ b && b ≤ 90) || (97 ≤ b && b ≤ 122) || b == 95

def isNameByte (b : UInt8) : Bool := isNameStart b || Bytes.isDigit b

/-- Parameters whose names are one byte: `@*#?-$!` and digits. -/
def isSpecial (b : UInt8) : Bool := (lit "@*#?-$!").elem b || Bytes.isDigit b

/-- Without blanks, joined lines and a comment. -/
def skipBlanks : Bytes → Bytes
  | [] => []
  | 92 :: 10 :: rest => skipBlanks rest
  | b :: rest =>
    if isBlank b then skipBlanks rest
    else if b == 35 then rest.dropWhile (· != 10)
    else b :: rest

/-- Without blanks, comments and newlines. -/
def skipLines : Nat → Bytes → Bytes
  | 0, s => s
  | fuel + 1, s =>
    match skipBlanks s with
    | 10 :: rest => skipLines fuel rest
    | s => s

def keyword? (word : String) (s : Bytes) : Option Bytes :=
  match Bytes.after? (lit word) (skipBlanks s) with
  | none => none
  | some rest => if rest.head?.all isDelimiter then some rest else none

/-- Words that end a list of commands. -/
def closers : List String := ["then", "do", "done", "fi", "else", "elif", "esac", "\x7d"]

/-! ## Words -/

/-- Up to the parenthesis that closes one already open; quotes hide parentheses. -/
def untilClosed : Nat → Nat → Bytes → Bytes → Reading Bytes
  | 0, _, _, _ => none
  | _ + 1, _, _, [] => none
  | fuel + 1, depth, done, b :: rest =>
    if b == 41 then
      match depth with
      | 0 => some (done.reverse, rest)
      | depth + 1 => untilClosed fuel depth (b :: done) rest
    else if b == 40 then untilClosed fuel (depth + 1) (b :: done) rest
    else if b == 39 || b == 34 then
      let (inside, after) := rest.span (· != b)
      match after with
      | [] => none
      | close :: after =>
        untilClosed fuel depth (close :: (inside.reverse ++ (b :: done))) after
    else if b == 92 then
      match rest with
      | c :: rest => untilClosed fuel depth (c :: b :: done) rest
      | [] => none
    else untilClosed fuel depth (b :: done) rest

/-- How the treatment of a parameter begins, longest first. -/
def treatments : List (String × Treatment) :=
  [("%%", .dropEnd true), ("%", .dropEnd false), ("##", .dropStart true), ("#", .dropStart false),
   (":-", .default true), ("-", .default false), (":+", .instead true), ("+", .instead false)]

def parameterName (s : Bytes) : Reading Bytes :=
  match s with
  | [] => none
  | b :: rest =>
    if isNameStart b then some (s.span isNameByte)
    else if isSpecial b then some ([b], rest)
    else none

def pushText (s : Bytes) (quoted : Bool) : List Piece → List Piece
  | .text t q :: done => if q == quoted then .text (t ++ s) q :: done else .text s quoted :: .text t q :: done
  | done => .text s quoted :: done

mutual

/-- After `$`. -/
def readDollar : Nat → Bool → Bytes → Reading Piece
  | 0, _, _ => none
  | fuel + 1, quoted, s =>
    match s with
    | 40 :: 40 :: rest =>
      match untilClosed (rest.length + 1) 1 [] rest with
      | some (inside, after) =>
        match readPieces fuel true (fun _ => false) [] inside.dropLast with
        | some (pieces, _) => some (.arithmetic pieces quoted, after)
        | none => none
      | none => none
    | 40 :: rest =>
      match untilClosed (rest.length + 1) 0 [] rest with
      | some (inside, after) => some (.output inside quoted, after)
      | none => none
    | 123 :: 35 :: rest =>
      match parameterName rest with
      | some (name, 125 :: after) => some (.parameter name .length [] quoted, after)
      | _ =>
        match rest with
        | 125 :: after => some (.parameter [35] .plain [] quoted, after)
        | _ => none
    | 123 :: rest =>
      match parameterName rest with
      | some (name, 125 :: after) => some (.parameter name .plain [] quoted, after)
      | some (name, after) =>
        match treatments.find? (fun t => Bytes.startsWith (lit t.1) after) with
        | none => none
        | some (mark, treatment) =>
          -- A pattern is a pattern inside double quotes too.
          match readPieces fuel (quoted && !treatment.isPattern) (· == 125) []
              (after.drop (lit mark).length) with
          | some (operand, 125 :: after) => some (.parameter name treatment operand quoted, after)
          | _ => none
      | none => none
    | _ =>
      match parameterName s with
      | some (name, after) => some (.parameter name .plain [] quoted, after)
      | none => some (.text [36] true, s)

/-- Pieces up to a byte that ends them; `quoted` inside double quotes.  The pieces read so far
stand last first. -/
def readPieces : Nat → Bool → (UInt8 → Bool) → List Piece → Bytes → Reading Word
  | 0, _, _, _, _ => none
  | fuel + 1, quoted, ends, done, s =>
    match s with
    | [] => some (done.reverse, [])
    | b :: rest =>
      if ends b then some (done.reverse, s)
      else if b == 92 then
        match rest with
        | 10 :: rest => readPieces fuel quoted ends done rest
        | c :: rest =>
          if quoted && !(lit "$\x60\"\\").elem c then
            readPieces fuel quoted ends (pushText [92, c] true done) rest
          else readPieces fuel quoted ends (pushText [c] true done) rest
        | [] => some ((pushText [92] true done).reverse, [])
      else if b == 36 then
        match readDollar fuel quoted rest with
        | some (p, rest) => readPieces fuel quoted ends (p :: done) rest
        | none => none
      else if b == 96 then
        match rest.span (· != 96) with
        | (inside, _ :: rest) => readPieces fuel quoted ends (.output inside quoted :: done) rest
        | _ => none
      else if b == 39 && !quoted then
        match rest.span (· != 39) with
        | (inside, _ :: rest) => readPieces fuel quoted ends (pushText inside true done) rest
        | _ => none
      else if b == 34 && !quoted then
        match readPieces fuel true (· == 34) [] rest with
        | some (inside, 34 :: rest) =>
          let inside := if inside.isEmpty then [.text [] true] else inside
          readPieces fuel quoted ends (inside.reverse ++ done) rest
        | _ => none
      else readPieces fuel quoted ends (pushText [b] quoted done) rest

end

/-- An unquoted word; there must be one. -/
def readWord (s : Bytes) : Reading Word :=
  match readPieces (4 * s.length + 4) false isDelimiter [] s with
  | some ([], _) => none
  | r => r

/-! ## Redirections -/

/-- A redirection, with a stream number in front or without. -/
def readRedirect (s : Bytes) : Reading Redirect :=
  let (digits, rest) := s.span Bytes.isDigit
  let number := digits.head?.map (fun d => d.toNat - 48)
  let make := fun (usual : Nat) (direction : Direction) (after : Bytes) =>
    match readWord (skipBlanks after) with
    | some (target, rest) => some (Redirect.mk (number.getD usual) direction target, rest)
    | none => none
  if 1 < digits.length then none
  else
    match rest with
    | 62 :: 62 :: after => make 1 .append after
    | 62 :: 38 :: after => make 1 .duplicate after
    | 62 :: 124 :: after => make 1 .write after
    | 62 :: after => make 1 .write after
    | 60 :: 60 :: after => make 0 .inline after
    | 60 :: 38 :: after => make 0 .duplicate after
    | 60 :: after => make 0 .read after
    | _ => none

def readRedirects : Nat → List Redirect → Bytes → List Redirect × Bytes
  | 0, done, s => (done.reverse, s)
  | fuel + 1, done, s =>
    match readRedirect (skipBlanks s) with
    | some (r, rest) => readRedirects fuel (r :: done) rest
    | none => (done.reverse, s)

def redirect (body : Command) (redirects : List Redirect) : Command :=
  if redirects.isEmpty then body else .redirected body redirects

/-! ## Commands -/

/-- `name=` in front of a word. -/
def readAssignment (s : Bytes) : Reading (Bytes × Word) :=
  match s.span isNameByte with
  | (name, 61 :: rest) =>
    if !name.head?.any isNameStart then none
    else
      match readWord rest with
      | some (value, rest) => some ((name, value), rest)
      | none => some ((name, []), rest)
  | _ => none

/-- Assignments, words and redirections in any order. -/
def readSimple : Nat → List (Bytes × Word) → List Word → List Redirect → Bytes → Reading Command
  | 0, _, _, _, _ => none
  | fuel + 1, assignments, words, redirects, s =>
    let s := skipBlanks s
    match readRedirect s with
    | some (r, rest) => readSimple fuel assignments words (r :: redirects) rest
    | none =>
      match if words.isEmpty then readAssignment s else none with
      | some (a, rest) => readSimple fuel (a :: assignments) words redirects rest
      | none =>
        match readWord s with
        | some (w, rest) => readSimple fuel assignments (w :: words) redirects rest
        | none =>
          if assignments.isEmpty && words.isEmpty && redirects.isEmpty then none
          else
            some (redirect (.simple assignments.reverse words.reverse) redirects.reverse, s)

/-- The words of a list, up to the end of the line. -/
def readWords : Nat → List Word → Bytes → List Word × Bytes
  | 0, done, s => (done.reverse, s)
  | fuel + 1, done, s =>
    match readWord (skipBlanks s) with
    | some (w, rest) => readWords fuel (w :: done) rest
    | none => (done.reverse, skipBlanks s)

def readPatterns : Nat → List Word → Bytes → Reading (List Word)
  | 0, _, _ => none
  | fuel + 1, done, s =>
    let s := skipBlanks s
    let s := if done.isEmpty then Bytes.withoutHead [40] s else s
    match readWord (skipBlanks s) with
    | none => none
    | some (w, rest) =>
      match skipBlanks rest with
      | 124 :: rest => readPatterns fuel (w :: done) rest
      | 41 :: rest => some ((w :: done).reverse, rest)
      | _ => none

mutual

def readList : Nat → List Command → Bytes → Reading Command
  | 0, _, _ => none
  | fuel + 1, done, s =>
    let s := skipLines (s.length + 1) s
    let finished : Command :=
      match done with
      | [c] => c
      | _ => .sequence done.reverse
    if s.isEmpty || s.head? == some 41 || Bytes.startsWith (lit ";;") s ||
        closers.any (fun k => (keyword? k s).isSome) then some (finished, s)
    else
      match readAndOr fuel s with
      | none => none
      | some (c, rest) =>
        match skipBlanks rest with
        | 59 :: 59 :: _ => some ((match done with | [] => c | _ => .sequence (c :: done).reverse), rest)
        | 59 :: rest => readList fuel (c :: done) rest
        | 38 :: rest => readList fuel (c :: done) rest
        | 10 :: rest => readList fuel (c :: done) rest
        | rest =>
          if rest.isEmpty || rest.head? == some 41 then readList fuel (c :: done) rest else none

/-- Pipelines joined by `&&` and `||`. -/
def readAndOr : Nat → Bytes → Reading Command
  | 0, _ => none
  | fuel + 1, s =>
    match readPipe fuel s with
    | none => none
    | some (c, rest) => readAndOrMore fuel c rest

def readAndOrMore : Nat → Command → Bytes → Reading Command
  | 0, _, _ => none
  | fuel + 1, first, s =>
    match skipBlanks s with
    | 38 :: 38 :: rest =>
      match readPipe fuel (skipLines (rest.length + 1) rest) with
      | some (c, rest) => readAndOrMore fuel (.and first c) rest
      | none => none
    | 124 :: 124 :: rest =>
      match readPipe fuel (skipLines (rest.length + 1) rest) with
      | some (c, rest) => readAndOrMore fuel (.or first c) rest
      | none => none
    | rest => some (first, rest)

/-- Commands joined by `|`, with `!` in front or without. -/
def readPipe : Nat → Bytes → Reading Command
  | 0, _ => none
  | fuel + 1, s =>
    match keyword? "!" s with
    | some rest =>
      match readStages fuel [] rest with
      | some (c, rest) => some (.not c, rest)
      | none => none
    | none => readStages fuel [] s

def readStages : Nat → List Command → Bytes → Reading Command
  | 0, _, _ => none
  | fuel + 1, done, s =>
    match readCommand fuel s with
    | none => none
    | some (c, rest) =>
      match skipBlanks rest with
      | 124 :: 124 :: _ => some (if done.isEmpty then c else .pipe (c :: done).reverse, rest)
      | 124 :: rest => readStages fuel (c :: done) (skipLines (rest.length + 1) rest)
      | rest => some (if done.isEmpty then c else .pipe (c :: done).reverse, rest)

def readCommand : Nat → Bytes → Reading Command
  | 0, _ => none
  | fuel + 1, s =>
    let s := skipBlanks s
    let closed := fun (r : Reading Command) =>
      match r with
      | some (c, rest) =>
        let (redirects, rest) := readRedirects (rest.length + 1) [] rest
        some (redirect c redirects, rest)
      | none => none
    if let some rest := keyword? "if" s then closed (readConditional fuel rest)
    else if let some rest := keyword? "while" s then closed (readLoop fuel true rest)
    else if let some rest := keyword? "until" s then closed (readLoop fuel false rest)
    else if let some rest := keyword? "for" s then closed (readEach fuel rest)
    else if let some rest := keyword? "case" s then closed (readSelect fuel rest)
    else if let some rest := keyword? "\x7b" s then
      closed <|
        match readList fuel [] rest with
        | some (c, rest) => (keyword? "\x7d" rest).map fun rest => (c, rest)
        | none => none
    else
      match s with
      | 40 :: rest =>
        closed <|
          match readList fuel [] rest with
          | some (c, 41 :: rest) => some (.nested c, rest)
          | _ => none
      | _ =>
        match s.span isNameByte with
        | (name, 40 :: 41 :: rest) =>
          match readCommand fuel (skipLines (rest.length + 1) rest) with
          | some (body, rest) => some (.define name body, rest)
          | none => none
        | _ => readSimple (s.length + 1) [] [] [] s

/-- After `if` or `elif`. -/
def readConditional : Nat → Bytes → Reading Command
  | 0, _ => none
  | fuel + 1, s =>
    match readList fuel [] s with
    | none => none
    | some (condition, rest) =>
      match (keyword? "then" rest).bind (readList fuel []) with
      | none => none
      | some (yes, rest) =>
        if let some rest := keyword? "fi" rest then some (.conditional condition yes .nothing, rest)
        else if let some rest := keyword? "elif" rest then
          match readConditional fuel rest with
          | some (no, rest) => some (.conditional condition yes no, rest)
          | none => none
        else
          match (keyword? "else" rest).bind (readList fuel []) with
          | some (no, rest) =>
            (keyword? "fi" rest).map fun rest => (.conditional condition yes no, rest)
          | none => none

/-- `do` to `done`. -/
def readBody : Nat → Bytes → Reading Command
  | 0, _ => none
  | fuel + 1, s =>
    match (keyword? "do" (skipLines (s.length + 1) s)).bind (readList fuel []) with
    | some (body, rest) => (keyword? "done" rest).map fun rest => (body, rest)
    | none => none

/-- After `while` or `until`. -/
def readLoop : Nat → Bool → Bytes → Reading Command
  | 0, _, _ => none
  | fuel + 1, wanted, s =>
    match readList fuel [] s with
    | none => none
    | some (condition, rest) =>
      match readBody fuel rest with
      | some (body, rest) => some (.loop wanted condition body, rest)
      | none => none

/-- After `for`. -/
def readEach : Nat → Bytes → Reading Command
  | 0, _ => none
  | fuel + 1, s =>
    let (name, rest) := (skipBlanks s).span isNameByte
    let (items, rest) :=
      match keyword? "in" (skipLines (rest.length + 1) rest) with
      | some rest =>
        let (words, rest) := readWords (rest.length + 1) [] rest
        (some words, rest)
      | none => (none, rest)
    let rest := Bytes.withoutHead [59] (skipBlanks rest)
    match readBody fuel rest with
    | some (body, rest) => some (.each name items body, rest)
    | none => none

/-- After `case`. -/
def readSelect : Nat → Bytes → Reading Command
  | 0, _ => none
  | fuel + 1, s =>
    match readWord (skipBlanks s) with
    | none => none
    | some (subject, rest) =>
      match keyword? "in" (skipLines (rest.length + 1) rest) with
      | none => none
      | some rest => readClauses fuel subject [] rest

/-- The clauses up to `esac`. -/
def readClauses : Nat → Word → List (List Word × Command) → Bytes → Reading Command
  | 0, _, _, _ => none
  | fuel + 1, subject, done, s =>
    let s := skipLines (s.length + 1) s
    match keyword? "esac" s with
    | some rest => some (.select subject done.reverse, rest)
    | none =>
      match readPatterns (s.length + 1) [] s with
      | none => none
      | some (patterns, rest) =>
        match readList fuel [] rest with
        | none => none
        | some (body, rest) =>
          let rest := skipLines (rest.length + 1) rest
          let rest := Bytes.withoutHead (lit ";;") rest
          readClauses fuel subject ((patterns, body) :: done) rest

end

/-! ## Documents inside scripts -/

def singleQuoted (s : Bytes) : Bytes :=
  [39] ++ s.flatMap (fun b => if b == 39 then lit "'\\''" else [b]) ++ [39]

/-- A text in double quotes whose parameters and commands still count. -/
def doubleQuoted (s : Bytes) : Bytes :=
  [34] ++ s.flatMap (fun b => if b == 34 then [92, 34] else [b]) ++ [34]

/-- The lines up to a delimiter and what comes after it; `dedent` drops tabs in front of lines. -/
def untilDelimiter (delimiter : Bytes) (dedent : Bool) : Nat → Bytes → Bytes × Bytes
  | 0, s => ([], s)
  | fuel + 1, s =>
    if s.isEmpty then ([], [])
    else
      let (raw, rest) := s.span (· != 10)
      let l := if dedent then raw.dropWhile (· == 9) else raw
      if l == delimiter then ([], rest.drop 1)
      else
        let (body, rest) := untilDelimiter delimiter dedent fuel (rest.drop 1)
        (l ++ [10] ++ body, rest)

/-- A script in which every document that stands on the lines after its command has become a
quoted word in its place.  `done` stands last first; `late` is what still follows on the line. -/
def placeDocuments : Nat → Option UInt8 → Bytes → Bytes → Bytes
  | 0, _, done, s => done.reverse ++ s
  | _ + 1, _, done, [] => done.reverse
  | fuel + 1, none, done, 60 :: 60 :: rest =>
    let dedent := rest.head? == some 45
    let rest := skipBlanks (if dedent then rest.drop 1 else rest)
    let (mark, rest) := rest.span (fun b => !isDelimiter b)
    let plain := mark.filter fun b => b != 39 && b != 34 && b != 92
    let (line, after) := rest.span (· != 10)
    let (body, after) := untilDelimiter plain dedent (after.length + 1) (after.drop 1)
    let word := if plain == mark then doubleQuoted body else singleQuoted body
    placeDocuments fuel none ((lit "<< " ++ word).reverse ++ done) (line ++ [10] ++ after)
  | fuel + 1, none, done, 92 :: b :: rest => placeDocuments fuel none (b :: 92 :: done) rest
  | fuel + 1, none, done, b :: rest =>
    placeDocuments fuel (if b == 39 || b == 34 then some b else none) (b :: done) rest
  | fuel + 1, some q, done, 92 :: b :: rest =>
    if q == 34 then placeDocuments fuel (some q) (b :: 92 :: done) rest
    else placeDocuments fuel (some q) (92 :: done) (b :: rest)
  | fuel + 1, some q, done, b :: rest =>
    placeDocuments fuel (if b == q then none else some q) (b :: done) rest

def parse (script : Bytes) : Option Command :=
  let script :=
    if Bytes.includes [60, 60] script then placeDocuments (script.length + 1) none [] script
    else script
  match readList (8 * script.length + 8) [] script with
  | some (c, rest) => if (skipLines (rest.length + 1) rest).isEmpty then some c else none
  | none => none

end Shell

end SymbolHistory
