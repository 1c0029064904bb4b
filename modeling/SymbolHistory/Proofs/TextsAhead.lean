/-
# Proofs.TextsAhead -- what stands on a symbol's line and the lines after it

A parameter list and an initial value are read byte by byte from a symbol's line
on, with a depth or a flag that says whether the list or the value has begun.
Both are one span of the lines put together.  A parameter list is the first group
of parentheses (`arguments_first_group`): as long as the text read so far opens
more than it closes, the reader goes on, so it stops at the first parenthesis that
makes the text balanced.  A value goes from the first equals sign to the first
semicolon (`initializer_span`).

Blanks are tidied afterwards.  That touches no parenthesis, so a group stays one.
-/
import Mathlib.Data.List.Infix
import SymbolHistory.Proofs.CheckedPositions

set_option autoImplicit false

namespace SymbolHistory

/-- The lines from a line on. -/
theorem SourceText.window_of_pos (src : SourceText) {line : Int} (positive : 1 ≤ line) (n : Nat) :
    src.window line n = (src.drop (line - 1).toNat).take n := by
  obtain ⟨k, rfl⟩ : ∃ k : Nat, line = k + 1 := ⟨(line - 1).toNat, by omega⟩
  rw [Int.add_sub_cancel, Int.toNat_natCast]
  rfl

namespace Signature

variable {c : UInt8} {s t : Bytes}

/-! ## Balanced text -/

/-- How many parentheses a text opens more than it closes. -/
def depth (s : Bytes) : Int := s.count 40 - s.count 41

/-- A text closes the parentheses that it opens, and none before it was opened. -/
structure Balanced (s : Bytes) : Prop where
  closed : depth s = 0
  inside : ∀ p, p <+: s → 0 ≤ depth p

/-- A text from a parenthesis to the one that matches it. -/
def Grouped (s : Bytes) : Prop := ∃ inner, s = 40 :: inner ++ [41] ∧ Balanced inner

/-- The shortest beginning of a text that is balanced. -/
structure FirstGroup (group s : Bytes) : Prop where
  front : group <+: s
  nonempty : group ≠ []
  balanced : Balanced group
  shortest : ∀ p, p <+: s → p ≠ [] → Balanced p → group.length ≤ p.length

/-- What a byte adds to the depth. -/
def weight (c : UInt8) : Int := if c = 40 then 1 else if c = 41 then -1 else 0

theorem weight_cases (c : UInt8) : c = 41 ∧ weight c = -1 ∨ 0 ≤ weight c := by
  unfold weight
  by_cases closes : c = 41
  · subst closes
    exact .inl ⟨rfl, rfl⟩
  · rw [if_neg closes]
    split <;> simp

@[simp] theorem depth_nil : depth [] = 0 := rfl

@[simp] theorem depth_cons (c : UInt8) (s : Bytes) : depth (c :: s) = weight c + depth s := by
  simp only [depth, weight, List.count_cons, beq_iff_eq]
  by_cases opens : c = 40
  · subst opens
    simp
    omega
  · by_cases closes : c = 41
    · subst closes
      simp
      omega
    · simp [opens, closes]

def parens (s : Bytes) : Bytes := s.filter fun b => b == 40 || b == 41

theorem depth_parens (s : Bytes) : depth (parens s) = depth s := by
  rw [depth, depth, parens, List.count_filter rfl, List.count_filter rfl]

/-- Texts with the same parentheses are balanced together. -/
theorem Balanced.of_parens (balanced : Balanced s) (same : parens t = parens s) : Balanced t where
  closed := by rw [← depth_parens, same, depth_parens, balanced.closed]
  inside p front := by
    obtain ⟨q, rfl⟩ := front
    have parts : s.filter (fun b => b == 40 || b == 41) = parens p ++ parens q := by
      rw [← parens, ← same, parens, List.filter_append, parens, parens]
    obtain ⟨p', q', rfl, samePart, -⟩ := List.filter_eq_append_iff.mp parts
    rw [← depth_parens, ← samePart, ← parens, depth_parens]
    exact balanced.inside p' (List.prefix_append p' q')

theorem depth_append (s t : Bytes) : depth (s ++ t) = depth s + depth t := by
  simp only [depth, List.count_append]
  omega

theorem Balanced.group (balanced : Balanced s) : Balanced (40 :: s ++ [41]) where
  closed := by
    rw [depth_append, depth_cons, balanced.closed]
    rfl
  inside p front := by
    rw [List.cons_append] at front
    rcases List.prefix_cons_iff.mp front with rfl | ⟨r, rfl, front'⟩
    · exact Int.le_refl 0
    · rw [depth_cons]
      rcases List.prefix_concat_iff.mp front' with rfl | within
      · rw [depth_append, balanced.closed]
        decide
      · have := balanced.inside r within
        have : weight 40 = 1 := rfl
        omega

/-- The parenthesis that makes a text balanced is the one that matches its first. -/
theorem Balanced.firstGroup (balanced : Balanced s) (rest : Bytes) :
    FirstGroup (40 :: s ++ [41]) (40 :: (s ++ 41 :: rest)) where
  front := ⟨rest, by simp⟩
  nonempty := by simp
  balanced := balanced.group
  shortest p front nonempty balanced' := by
    rcases List.prefix_cons_iff.mp front with rfl | ⟨r, rfl, front'⟩
    · exact absurd rfl nonempty
    · by_contra shorter
      have within : r <+: s := by
        refine List.prefix_of_prefix_length_le front' (List.prefix_append s _) ?_
        simp only [List.length_cons, List.length_append, List.length_nil] at shorter
        omega
      have := balanced.inside r within
      have closed := balanced'.closed
      have : weight 40 = 1 := rfl
      rw [depth_cons] at closed
      omega

/-! ## Tidy blanks -/

theorem squeeze_cons (c : UInt8) (s : Bytes) : squeeze (c :: s) =
    if isBlank c then (if (squeeze s).head? == some 32 then squeeze s else 32 :: squeeze s)
    else c :: squeeze s := rfl

theorem closeUpOpen_cons (c : UInt8) (s : Bytes) : closeUpOpen (c :: s) =
    if c == 40 then
      match closeUpOpen s with
      | d :: rest => if isBlank d then c :: rest else c :: closeUpOpen s
      | [] => [c]
    else c :: closeUpOpen s := rfl

theorem closeUpClose_cons (c : UInt8) (s : Bytes) : closeUpClose (c :: s) =
    if isBlank c && s.head? == some 41 then closeUpClose s else c :: closeUpClose s := rfl

def dense (s : Bytes) : Bytes := s.filter fun b => !isBlank b

theorem dense_cons_of_blank (blank : isBlank c = true) (s : Bytes) : dense (c :: s) = dense s :=
  List.filter_cons_of_neg (by simp [blank])

theorem dense_cons_of_plain (plain : isBlank c = false) (s : Bytes) :
    dense (c :: s) = c :: dense s :=
  List.filter_cons_of_pos (by simp [plain])

theorem dense_cons_congr (c : UInt8) (same : dense s = dense t) : dense (c :: s) = dense (c :: t) := by
  rw [dense, dense, List.filter_cons, List.filter_cons, ← dense, ← dense, same]

theorem dense_squeeze (s : Bytes) : dense (squeeze s) = dense s := by
  induction s with
  | nil => rfl
  | cons c s ih =>
      rw [squeeze_cons]
      split
      · rename_i blank
        rw [dense_cons_of_blank blank, ← ih]
        split
        · rfl
        · exact dense_cons_of_blank rfl _
      · exact dense_cons_congr c ih

theorem dense_closeUpOpen (s : Bytes) : dense (closeUpOpen s) = dense s := by
  induction s with
  | nil => rfl
  | cons c s ih =>
      have kept := dense_cons_congr c ih
      rw [closeUpOpen_cons]
      split
      · cases after : closeUpOpen s with
        | nil => rwa [after] at kept
        | cons d rest =>
            rw [after] at kept
            dsimp only
            split
            · rename_i blank
              rw [← kept]
              exact dense_cons_congr c (dense_cons_of_blank blank rest).symm
            · exact kept
      · exact kept

theorem dense_closeUpClose (s : Bytes) : dense (closeUpClose s) = dense s := by
  induction s with
  | nil => rfl
  | cons c s ih =>
      rw [closeUpClose_cons]
      split
      · rename_i before
        rw [ih, dense_cons_of_blank (Bool.and_eq_true_iff.mp before).1]
      · exact dense_cons_congr c ih

/-- Nothing but blanks comes or goes. -/
theorem dense_fixWhitespace (s : Bytes) : dense (fixWhitespace s) = dense s := by
  rw [fixWhitespace, dense_closeUpClose, dense_closeUpOpen, dense_squeeze]

theorem parens_dense (s : Bytes) : parens (dense s) = parens s := by
  rw [parens, parens, dense, List.filter_filter]
  refine List.filter_congr fun b _ => ?_
  by_cases blank : isBlank b = true
  · rcases (by simpa [isBlank] using blank : b = 32 ∨ b = 9) with rfl | rfl <;> rfl
  · rw [Bool.eq_false_iff.mpr blank, Bool.not_false, Bool.and_true]

theorem parens_fixWhitespace (s : Bytes) : parens (fixWhitespace s) = parens s := by
  rw [← parens_dense, dense_fixWhitespace, parens_dense]

theorem getLast?_behind (c : UInt8) (last : s.getLast? = some 41) : (c :: s).getLast? = some 41 := by
  rw [List.getLast?_cons, last, Option.getD_some]

/-- What tidying goes on from does not lose a closing parenthesis at its end. -/
theorem getLast?_foldr {tidy : UInt8 → Bytes → Bytes} (alone : tidy 41 [] = [41])
    (kept : ∀ c out, out.getLast? = some 41 → (tidy c out).getLast? = some 41) :
    s.getLast? = some 41 → (s.foldr tidy []).getLast? = some 41 := by
  induction s with
  | nil => exact fun last => by cases last
  | cons c s ih =>
      intro last
      rw [List.foldr_cons]
      cases s with
      | nil =>
          obtain rfl : c = 41 := Option.some.inj last
          rw [List.foldr_nil, alone]
          rfl
      | cons d s => exact kept c _ (ih (List.getLast?_cons_cons.symm.trans last))

theorem getLast?_closeUpClose (last : s.getLast? = some 41) :
    (closeUpClose s).getLast? = some 41 := by
  induction s with
  | nil => cases last
  | cons c s ih =>
      cases s with
      | nil =>
          obtain rfl : c = 41 := Option.some.inj last
          rfl
      | cons d s =>
          have later := ih (List.getLast?_cons_cons.symm.trans last)
          rw [closeUpClose_cons]
          split
          · exact later
          · exact getLast?_behind c later

theorem getLast?_fixWhitespace (last : s.getLast? = some 41) : (fixWhitespace s).getLast? = some 41 := by
  refine getLast?_closeUpClose (getLast?_foldr rfl (fun c out last => ?_)
    (getLast?_foldr rfl (fun c out last => ?_) last))
  · split
    · split
      · rename_i d rest
        split
        · rename_i blank
          refine getLast?_behind c ?_
          rw [List.getLast?_cons] at last
          cases isLast : rest.getLast? with
          | some e => rwa [isLast] at last
          | none =>
              rw [isLast, Option.getD_none] at last
              rw [Option.some.inj last] at blank
              cases blank
        · exact getLast?_behind c last
      · cases last
    · exact getLast?_behind c last
  · split
    · split
      · exact last
      · exact getLast?_behind 32 last
    · exact getLast?_behind c last

theorem closeUpOpen_head (c : UInt8) (s : Bytes) : ∃ t, closeUpOpen (c :: s) = c :: t := by
  rw [closeUpOpen_cons]
  split
  · cases closeUpOpen s with
    | nil => exact ⟨[], rfl⟩
    | cons d rest =>
        dsimp only
        split
        · exact ⟨rest, rfl⟩
        · exact ⟨d :: rest, rfl⟩
  · exact ⟨closeUpOpen s, rfl⟩

theorem fixWhitespace_open (s : Bytes) : ∃ t, fixWhitespace (40 :: s) = 40 :: t := by
  have squeezed : squeeze (40 :: s) = 40 :: squeeze s := rfl
  obtain ⟨t, opened⟩ := closeUpOpen_head 40 (squeeze s)
  rw [fixWhitespace, squeezed, opened]
  exact ⟨closeUpClose t, rfl⟩

/-- Tidy blanks leave a group a group. -/
theorem Grouped.fixWhitespace (grouped : Grouped s) : Grouped (fixWhitespace s) := by
  obtain ⟨inner, rfl, balanced⟩ := grouped
  have same := parens_fixWhitespace (40 :: inner ++ [41])
  have last := getLast?_fixWhitespace (s := 40 :: inner ++ [41]) List.getLast?_concat
  obtain ⟨rest, first⟩ := fixWhitespace_open (inner ++ [41])
  rw [← List.cons_append] at first
  rw [first] at same last ⊢
  obtain ⟨inner', rfl⟩ : ∃ inner', rest = inner' ++ [41] := by
    cases rest with
    | nil => cases last
    | cons c rest => exact List.getLast?_eq_some_iff.mp (List.getLast?_cons_cons.symm.trans last)
  refine ⟨inner', rfl, balanced.of_parens ?_⟩
  simpa [parens] using same

section

variable (plain : isBlank c = false) (s t : Bytes)

include plain

theorem squeeze_plain : squeeze (c :: t) = c :: squeeze t := by rw [squeeze_cons, plain, if_neg nofun]

theorem squeeze_append : squeeze (s ++ c :: t) = squeeze s ++ squeeze (c :: t) := by
  have other : ¬(some c == some 32) = true := by
    intro same
    obtain rfl : c = 32 := by simpa using same
    cases plain
  induction s with
  | nil => rfl
  | cons b s ih =>
      rw [List.cons_append, squeeze_cons b, ih, squeeze_cons b s]
      split
      · cases squeeze s with
        | nil =>
            rw [List.nil_append, squeeze_plain plain, List.head?_cons, if_neg other]
            rfl
        | cons d rest =>
            rw [List.cons_append, List.head?_cons, List.head?_cons]
            split <;> rfl
      · rfl

theorem closeUpOpen_append : closeUpOpen (s ++ c :: t) = closeUpOpen s ++ closeUpOpen (c :: t) := by
  obtain ⟨rest, begins⟩ := closeUpOpen_head c t
  induction s with
  | nil => rfl
  | cons b s ih =>
      rw [List.cons_append, closeUpOpen_cons b, ih, closeUpOpen_cons b s]
      split
      · cases closeUpOpen s with
        | nil =>
            rw [List.nil_append, begins]
            simp only [plain, Bool.false_eq_true, if_false]
            rfl
        | cons d rest =>
            simp only [List.cons_append]
            split <;> rfl
      · rfl

theorem closeUpClose_plain : closeUpClose (c :: t) = c :: closeUpClose t := by
  rw [closeUpClose_cons, plain, Bool.false_and, if_neg nofun]

omit plain in
theorem closeUpClose_append (notClose : c ≠ 41) :
    closeUpClose (s ++ c :: t) = closeUpClose s ++ closeUpClose (c :: t) := by
  induction s with
  | nil => rfl
  | cons b s ih =>
      have closes : ((s ++ c :: t).head? == some 41) = (s.head? == some 41) := by
        cases s with
        | nil => simpa using notClose
        | cons d s => rfl
      rw [List.cons_append, closeUpClose_cons b, ih, closeUpClose_cons b s, closes]
      split <;> rfl

/-- A byte that is no blank and closes nothing parts what is before it from what is behind it. -/
theorem fixWhitespace_append (notClose : c ≠ 41) :
    fixWhitespace (s ++ c :: t) = fixWhitespace s ++ fixWhitespace (c :: t) := by
  have squeezed := squeeze_plain plain t
  obtain ⟨rest, opened⟩ := closeUpOpen_head c (squeeze t)
  rw [fixWhitespace, squeeze_append plain, squeezed, closeUpOpen_append plain, opened,
    closeUpClose_append _ _ notClose, ← opened, ← squeezed]
  rfl

end

/-! ## Parameter lists -/

/-- One byte of an open parameter list. -/
theorem collectArguments_cons {d : Int} (positive : 0 < d) (out : Bytes) (c : UInt8) (s : Bytes) :
    collectArguments d out (c :: s) =
      if d + weight c = 0 then (c :: out, true) else collectArguments (d + weight c) (c :: out) s := by
  rw [collectArguments, weight]
  by_cases opens : c = 40
  · subst opens
    simp [show d + 1 ≠ 0 by omega]
  · by_cases closes : c = 41
    · subst closes
      simp [← sub_eq_add_neg]
    · simp [opens, closes, show d ≠ 0 by omega]

/-- An open parameter list goes on while more was opened than closed. -/
theorem collectArguments_open (s : Bytes) : ∀ (d : Int) (out : Bytes), 0 < d →
    (∃ p q, s = p ++ 41 :: q ∧ d + depth p = 1 ∧ (∀ r, r <+: p → 0 < d + depth r) ∧
      collectArguments d out s = ((p ++ [41]).reverse ++ out, true)) ∨
    (∀ r, r <+: s → 0 < d + depth r) ∧ collectArguments d out s = (s.reverse ++ out, false) := by
  induction s with
  | nil =>
      intro d out positive
      refine .inr ⟨fun r front => ?_, rfl⟩
      rw [List.prefix_nil.mp front, depth_nil]
      omega
  | cons c s ih =>
      intro d out positive
      -- the beginnings of a text behind `c` are counted on from `c`
      have further : ∀ {t : Bytes}, (∀ r, r <+: t → 0 < d + weight c + depth r) →
          ∀ r, r <+: c :: t → 0 < d + depth r := by
        intro t each r front
        rcases List.prefix_cons_iff.mp front with rfl | ⟨r', rfl, front'⟩
        · simpa using positive
        · have := each r' front'
          rw [depth_cons]
          omega
      rw [collectArguments_cons positive]
      by_cases closes : d + weight c = 0
      · obtain ⟨rfl, rfl⟩ : c = 41 ∧ d = 1 := by
          rcases weight_cases c with ⟨isClose, one⟩ | more
          · exact ⟨isClose, by omega⟩
          · omega
        refine .inl ⟨[], s, rfl, rfl, fun r front => ?_, by rw [if_pos closes]; rfl⟩
        rw [List.prefix_nil.mp front, depth_nil]
        omega
      · have deeper : 0 < d + weight c := by
          rcases weight_cases c with ⟨-, one⟩ | more <;> omega
        rw [if_neg closes]
        rcases ih (d + weight c) (c :: out) deeper with ⟨p, q, rfl, level, each, read⟩ | ⟨each, read⟩
        · refine .inl ⟨c :: p, q, rfl, ?_, further each, ?_⟩
          · rw [depth_cons, ← level]
            omega
          · rw [read]
            simp
        · refine .inr ⟨further each, ?_⟩
          rw [read]
          simp

/-- Before the first parenthesis nothing is read. -/
theorem collectArguments_skip {u : Bytes} (clear : ∀ b ∈ u, b ≠ 40 ∧ b ≠ 41) (s : Bytes) :
    collectArguments 0 [] (u ++ s) = collectArguments 0 [] s := by
  induction u with
  | nil => rfl
  | cons b u ih =>
      obtain ⟨noOpen, noClose⟩ := clear b List.mem_cons_self
      rw [List.cons_append, collectArguments]
      simp only [beq_iff_eq, noOpen, noClose, if_false, if_true]
      exact ih fun c member => clear c (List.mem_cons_of_mem b member)

/-- Where no parenthesis is closed before one is opened, a parameter list is the first group of
parentheses in the text ahead, or all of it from the first parenthesis on if no group ends there. -/
theorem arguments_first_group (src : SourceText) {line : Int} (positive : 1 ≤ line) :
    let ahead := ((src.drop (line - 1).toNat).take 20).flatten
    let list := ahead.dropWhile (· != 40)
    41 ∉ ahead.takeWhile (· != 40) →
      (∃ group, FirstGroup group list ∧ arguments src line = fixWhitespace group ∧
        Grouped (arguments src line)) ∨
      (∀ p, p <+: list → p ≠ [] → ¬Balanced p) ∧
        arguments src line = fixWhitespace (list ++ lit ", ???)") ∧
        arguments src line = fixWhitespace list ++ lit ", ???)" := by
  intro ahead list clear
  have skipped : collectArguments 0 [] ahead = collectArguments 0 [] list := by
    rw [← List.takeWhile_append_dropWhile (p := (· != 40)) (l := ahead)]
    refine collectArguments_skip (fun b member => ⟨?_, fun same => clear (same ▸ member)⟩) list
    simpa using List.mem_takeWhile_imp member
  have read : arguments src line = fixWhitespace ((collectArguments 0 [] list).1.reverse ++
      if (collectArguments 0 [] list).2 then [] else lit ", ???)") := by
    rw [arguments, if_neg (by omega), src.window_of_pos positive, bodyLines, skipped]
  have begins := List.head?_dropWhile_not (· != 40) ahead
  rw [show ahead.dropWhile (· != 40) = list from rfl] at begins
  rw [read]
  cases whole : list with
  | nil =>
      refine .inr ⟨fun p front nonempty => ?_, rfl, rfl⟩
      exact absurd (List.prefix_nil.mp front) nonempty
  | cons b inside =>
      obtain rfl : b = 40 := by simpa [whole] using begins
      have opened : collectArguments 0 [] (40 :: inside) = collectArguments 1 [40] inside := rfl
      have depth_open : ∀ r, depth (40 :: r) = 1 + depth r := depth_cons 40
      rw [opened]
      rcases collectArguments_open inside 1 [40] (by decide) with
        ⟨p, q, rfl, level, each, closed⟩ | ⟨each, ended⟩
      · have group : (collectArguments 1 [40] (p ++ 41 :: q)).1.reverse = 40 :: p ++ [41] := by
          rw [closed]
          simp
        have balanced : Balanced p := ⟨by omega, fun r front => by have := each r front; omega⟩
        rw [group, closed, if_pos rfl, List.append_nil]
        exact .inl ⟨40 :: p ++ [41], balanced.firstGroup q, rfl, Grouped.fixWhitespace ⟨p, rfl, balanced⟩⟩
      · refine .inr ⟨fun p front nonempty balanced => ?_, ?_⟩
        · rcases List.prefix_cons_iff.mp front with rfl | ⟨r, rfl, front'⟩
          · exact nonempty rfl
          · have := each r front'
            have := balanced.closed
            rw [depth_open] at this
            omega
        · have cut : fixWhitespace (40 :: inside ++ lit ", ???)") =
              fixWhitespace (40 :: inside) ++ lit ", ???)" :=
            fixWhitespace_append (c := 44) rfl _ _ (by decide)
          rw [ended, ← cut]
          simp

theorem arguments_first_group_nested :
    let src : SourceText := [lit "void wrap(int (*cb)( int ),", lit "\tint x", lit ") \x7b \x7d (again)"]
    (1 : Int) ≤ 1 ∧ 41 ∉ (((src.drop 0).take 20).flatten).takeWhile (· != 40) ∧
    arguments src 1 = lit "(int (*cb)(int), int x)" ∧ Grouped (arguments src 1) := by
  intro src
  have positive : (1 : Int) ≤ 1 := by decide
  have clear : 41 ∉ (((src.drop 0).take 20).flatten).takeWhile (· != 40) := by decide +kernel
  have text : arguments src 1 = lit "(int (*cb)(int), int x)" := by decide +kernel
  rcases arguments_first_group src positive clear with ⟨_, -, -, grouped⟩ | ⟨-, cut, -⟩
  · exact ⟨positive, clear, text, grouped⟩
  · exact absurd (text.symm.trans cut) (by decide +kernel)

/-! ## Initial values -/

theorem collectValue_started (s : Bytes) : ∀ out, collectValue true out s =
    ((s.takeWhile (· != 59)).reverse ++ out, decide (59 ∈ s)) := by
  induction s with
  | nil => exact fun _ => rfl
  | cons c s ih =>
      intro out
      rw [collectValue]
      by_cases ends : c = 59
      · subst ends
        simp
      · have other : ¬59 = c := fun same => ends same.symm
        simp only [beq_iff_eq, ends, if_false, if_true, ih, ite_self]
        simp [ends, other]

/-- A value is the text from the first equals sign up to the first semicolon. -/
theorem collectValue_span (s : Bytes) : collectValue false [] s =
    (((s.takeWhile (· != 59)).dropWhile (· != 61)).reverse, decide (59 ∈ s)) := by
  induction s with
  | nil => rfl
  | cons c s ih =>
      rw [collectValue]
      by_cases equals : c = 61
      · subst equals
        rw [if_pos (beq_self_eq_true 61), collectValue_started]
        simp
      · by_cases ends : c = 59
        · subst ends
          simp
        · have other : ¬59 = c := fun same => ends same.symm
          simp only [beq_iff_eq, equals, ends, if_false, Bool.false_eq_true, ih]
          simp [equals, ends, other]

/-- An initial value is the text ahead from its first equals sign up to its first semicolon, and the
same comes out if a depth is counted that every equals sign sets and every semicolon lowers.  What
stands behind the semicolon does not matter, and neither do further equals signs. -/
theorem initializer_span (src : SourceText) {line : Int} (positive : 1 ≤ line) :
    let ahead := ((src.drop (line - 1).toNat).take 20).flatten
    let upTo := ahead.takeWhile (· != 59)
    let value := upTo.dropWhile (· != 61)
    initializer src line =
      lit " " ++ fixWhitespace (Utf8.trim (value ++ if 59 ∈ ahead then [] else lit " ???")) ∧
    (run valueStep (0, []) ahead).1.2.reverse = value ∧
    (run valueStep (0, []) ahead).2 = decide (59 ∈ ahead) ∧
    (∀ front rest, upTo = front ++ 61 :: rest → 61 ∉ front → value = 61 :: rest) ∧
    ∀ (other : SourceText) (place : Int) (rest : Bytes), 1 ≤ place → 59 ∈ ahead →
      ((other.drop (place - 1).toNat).take 20).flatten = upTo ++ 59 :: rest →
        initializer other place = initializer src line := by
  have spanned : ∀ (src : SourceText) {line : Int}, 1 ≤ line →
      let ahead := ((src.drop (line - 1).toNat).take 20).flatten
      initializer src line = lit " " ++ fixWhitespace (Utf8.trim
        ((ahead.takeWhile (· != 59)).dropWhile (· != 61) ++ if 59 ∈ ahead then [] else lit " ???")) := by
    intro src line positive ahead
    have space : lit " " = [32] := rfl
    have mark : (if decide (59 ∈ ahead) then [] else lit " ???") =
        if 59 ∈ ahead then [] else lit " ???" := by simp only [decide_eq_true_eq]
    rw [initializer, if_neg (by omega), src.window_of_pos positive, bodyLines, collectValue_span,
      ← mark, space, List.singleton_append]
    simp only [List.reverse_reverse, ahead]
  intro ahead upTo value
  have counted := run_valueStep false [] ahead
  rw [collectValue_span, Prod.mk.injEq] at counted
  refine ⟨spanned src positive, ?_, counted.2, ?_, ?_⟩
  · rw [show (run valueStep (0, []) ahead).1.2 = _ from counted.1, List.reverse_reverse]
  · intro front rest parts before
    have others : ∀ b ∈ front, (b != 61) = true := fun b member => by
      simpa using fun same : b = 61 => before (same ▸ member)
    rw [show value = upTo.dropWhile (· != 61) from rfl, parts, List.dropWhile_append_of_pos others]
    exact List.dropWhile_cons_of_neg (by simp)
  · intro other place rest positive' ends same
    have stops : ∀ b ∈ upTo, (b != 59) = true := fun b member =>
      List.mem_takeWhile_imp (p := (· != 59)) member
    have upTo' : (upTo ++ 59 :: rest).takeWhile (· != 59) = upTo := by
      rw [List.takeWhile_append_of_pos stops, List.takeWhile_cons_of_neg (by simp), List.append_nil]
    rw [spanned other positive', spanned src positive, same, upTo', if_pos ends, if_pos (by simp)]

theorem initializer_span_list :
    let src : SourceText := [lit "const char *names[] = \x7b", lit "\ta = 1,", lit "\t\"b\" \x7d; int n = 2;"]
    (1 : Int) ≤ 1 ∧
    initializer src 1 = lit " " ++ fixWhitespace (Utf8.trim (lit "= \x7b\ta = 1,\t\"b\" \x7d")) ∧
    initializer src 1 = lit " = \x7b a = 1, \"b\" \x7d" := by
  intro src
  have positive : (1 : Int) ≤ 1 := by decide
  obtain ⟨text, -⟩ := initializer_span src positive
  have value : ((((src.drop 0).take 20).flatten).takeWhile (· != 59)).dropWhile (· != 61) ++
      (if 59 ∈ ((src.drop 0).take 20).flatten then [] else lit " ???") =
        lit "= \x7b\ta = 1,\t\"b\" \x7d" := by decide +kernel
  have tidied := text.trans (congrArg (fun v => lit " " ++ fixWhitespace (Utf8.trim v)) value)
  exact ⟨positive, tidied, tidied.trans (by decide +kernel)⟩

end Signature

end SymbolHistory
