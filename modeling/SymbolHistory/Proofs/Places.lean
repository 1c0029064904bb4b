/-
# Proofs.Places -- which location a path leads to

A path is text and a location a list of steps; everything that is known about
files is known about locations.  The rules here let paths be forgotten:
`locate_join` says that joining a name to a path adds a step to its location,
`locate_dir` that the path up to the last step leads to the location without it,
and `locate_ancestors` that the paths on the way to a clean path lead to places
on the way to its location, or on the way to the working folder.
-/
import Mathlib.Data.List.Induction
import Mathlib.Data.List.TakeDrop
import Mathlib.Data.List.TakeWhile
import SymbolHistory.Host

set_option autoImplicit false

namespace SymbolHistory

namespace Bytes

/-! ## Pieces -/

theorem splitOn_nil (sep : UInt8) : splitOn sep [] = [[]] := rfl

theorem splitOn_sep (sep : UInt8) (s : Bytes) : splitOn sep (sep :: s) = [] :: splitOn sep s := by
  simp [splitOn]

theorem splitOn_ne_nil (sep : UInt8) (s : Bytes) : splitOn sep s ≠ [] := by
  simp [splitOn]

theorem splitOn_cons {sep b : UInt8} (other : b ≠ sep) (s : Bytes) :
    ∃ head tail, splitOn sep s = head :: tail ∧ splitOn sep (b :: s) = (b :: head) :: tail := by
  refine ⟨_, _, rfl, ?_⟩
  simp [splitOn, other]

/-- A separator divides the pieces of a text. -/
theorem splitOn_append_sep (sep : UInt8) (u v : Bytes) :
    splitOn sep (u ++ sep :: v) = splitOn sep u ++ splitOn sep v := by
  induction u with
  | nil => simp [splitOn_sep, splitOn_nil]
  | cons b u ih =>
      by_cases hb : b = sep
      · subst hb
        simp [splitOn_sep, ih]
      · obtain ⟨head, tail, short, long⟩ := splitOn_cons hb u
        obtain ⟨head', tail', short', long'⟩ := splitOn_cons hb (u ++ sep :: v)
        rw [ih, short, List.cons_append, List.cons.injEq] at short'
        rw [List.cons_append, long', long, List.cons_append, ← short'.1, ← short'.2]

theorem splitOn_of_not_mem {sep : UInt8} {s : Bytes} (absent : sep ∉ s) : splitOn sep s = [s] := by
  induction s with
  | nil => rfl
  | cons b s ih =>
      rw [List.mem_cons, not_or] at absent
      obtain ⟨head, tail, short, long⟩ := splitOn_cons (Ne.symm absent.1) s
      rw [ih absent.2, List.cons.injEq] at short
      rw [long, ← short.1, ← short.2]

/-- A run of bytes of one kind ends where the first of another kind stands. -/
theorem span_append {p : UInt8 → Bool} {u v : Bytes} (run : ∀ b ∈ u, p b = true)
    (stops : ∀ b ∈ v.head?, p b = false) : (u ++ v).span p = (u, v) := by
  rw [List.span_eq_takeWhile_dropWhile, List.takeWhile_append_of_pos run, List.dropWhile_append_of_pos run]
  cases v with
  | nil => simp
  | cons b v =>
      have other := stops b rfl
      rw [List.takeWhile_cons_of_neg (by simp [other]), List.dropWhile_cons_of_neg (by simp [other]),
        List.append_nil]

theorem cutByte_append {sep : UInt8} {u : Bytes} (absent : sep ∉ u) (v : Bytes) :
    cutByte sep (u ++ sep :: v) = some (u, v) := by
  have others : ∀ b ∈ u, (b != sep) = true := by
    intro b member
    rw [bne_iff_ne]
    rintro rfl
    exact absent member
  rw [cutByte, span_append others (by simp)]

theorem not_mem_of_mem_splitOn {sep : UInt8} {s piece : Bytes} (member : piece ∈ splitOn sep s) :
    sep ∉ piece := by
  induction s generalizing piece with
  | nil => simp_all [splitOn_nil]
  | cons b s ih =>
      by_cases hb : b = sep
      · subst hb
        rw [splitOn_sep, List.mem_cons] at member
        rcases member with rfl | member
        · simp
        · exact ih member
      · obtain ⟨head, tail, short, long⟩ := splitOn_cons hb s
        rw [long, List.mem_cons] at member
        rcases member with rfl | member
        · have : sep ∉ head := ih (by simp [short])
          simp [this, Ne.symm hb]
        · exact ih (by simp [short, member])

theorem withoutTail_append (tail s : Bytes) : withoutTail tail (s ++ tail) = s := by
  simp [withoutTail, endsWith]

theorem join_singleton (sep s : Bytes) : join sep [s] = s := by simp [join]

theorem join_cons_cons (sep s t : Bytes) (ss : List Bytes) :
    join sep (s :: t :: ss) = s ++ sep ++ join sep (t :: ss) := by
  simp [join]

theorem join_snoc (sep s : Bytes) (ss : List Bytes) (nonempty : ss ≠ []) :
    join sep (ss ++ [s]) = join sep ss ++ sep ++ s := by
  induction ss with
  | nil => exact absurd rfl nonempty
  | cons t ss ih =>
      cases ss with
      | nil => simp [join]
      | cons u ss =>
          rw [List.cons_append, List.cons_append, join_cons_cons, ← List.cons_append,
            ih (by simp), join_cons_cons]
          simp

end Bytes

namespace Path

/-! ## Steps -/

structure IsStep (s : Bytes) : Prop where
  noSlash : slash ∉ s
  notEmpty : s ≠ []
  notHere : s ≠ here

/-- A name that is a step down. -/
structure IsName (s : Bytes) : Prop extends IsStep s where
  notParent : s ≠ parent

theorem parent_isStep : IsStep parent := ⟨by decide, by decide, by decide⟩

theorem isStep_of_mem_steps {p s : Bytes} (member : s ∈ steps p) : IsStep s := by
  simp only [steps, List.mem_filter, Bool.and_eq_true, Bool.not_eq_true',
    List.isEmpty_eq_false_iff, bne_iff_ne] at member
  exact ⟨Bytes.not_mem_of_mem_splitOn member.1, member.2.1, member.2.2⟩

theorem steps_nil : steps [] = [] := rfl

theorem steps_slash (u v : Bytes) : steps (u ++ slash :: v) = steps u ++ steps v := by
  simp [steps, Bytes.splitOn_append_sep]

theorem steps_of_isStep {s : Bytes} (step : IsStep s) : steps s = [s] := by
  have kept : (!s.isEmpty && s != here) = true := by
    simp [step.notEmpty, step.notHere]
  simp only [steps, Bytes.splitOn_of_not_mem step.noSlash, List.filter_cons, kept, if_true,
    List.filter_nil]

theorem steps_join {ss : List Bytes} (each : ∀ s ∈ ss, IsStep s) :
    steps (Bytes.join [slash] ss) = ss := by
  induction ss with
  | nil => rfl
  | cons s ss ih =>
      have first := steps_of_isStep (each s (by simp))
      cases ss with
      | nil => rw [Bytes.join_singleton, first]
      | cons t ss =>
          rw [Bytes.join_cons_cons, List.append_assoc, List.singleton_append, steps_slash, first,
            ih fun s member => each s (by simp [member])]
          rfl

theorem isAbsolute_append {u : Bytes} (nonempty : u ≠ []) (v : Bytes) :
    isAbsolute (u ++ v) = isAbsolute u := by
  cases u with
  | nil => exact absurd rfl nonempty
  | cons b u => rfl

theorem isAbsolute_of_isStep {s : Bytes} (step : IsStep s) : isAbsolute s = false := by
  cases s with
  | nil => exact absurd rfl step.notEmpty
  | cons b s =>
      have : b ≠ slash := fun e => step.noSlash (by simp [e])
      simp [isAbsolute, this]

theorem isAbsolute_join {s : Bytes} {ss : List Bytes} (step : IsStep s) :
    isAbsolute (Bytes.join [slash] (s :: ss)) = false := by
  cases ss with
  | nil => rw [Bytes.join_singleton, isAbsolute_of_isStep step]
  | cons t ss =>
      rw [Bytes.join_cons_cons, List.append_assoc, isAbsolute_append step.notEmpty,
        isAbsolute_of_isStep step]

theorem steps_ofSteps (rooted : Bool) {ss : List Bytes} (each : ∀ s ∈ ss, IsStep s) :
    steps (ofSteps rooted ss) = ss := by
  cases rooted with
  | true =>
      have := steps_slash [] (Bytes.join [slash] ss)
      rw [steps_join each, steps_nil] at this
      exact this
  | false =>
      cases ss with
      | nil => rfl
      | cons s ss => exact steps_join each

theorem isAbsolute_ofSteps (rooted : Bool) {ss : List Bytes} (each : ∀ s ∈ ss, IsStep s) :
    isAbsolute (ofSteps rooted ss) = rooted := by
  cases rooted with
  | true => rfl
  | false =>
      cases ss with
      | nil => rfl
      | cons s ss => exact isAbsolute_join (each s (by simp))

/-! ## Walks -/

theorem walk_name (rooted : Bool) (taken : List Bytes) {s : Bytes} (notParent : s ≠ parent) :
    walk rooted taken s = s :: taken := by
  simp [walk, notParent]

/-- Steps down are all taken. -/
theorem foldl_walk_names (rooted : Bool) {names : List Bytes} (down : ∀ s ∈ names, s ≠ parent)
    (taken : List Bytes) : names.foldl (walk rooted) taken = names.reverse ++ taken := by
  induction names generalizing taken with
  | nil => rfl
  | cons s names ih =>
      rw [List.foldl_cons, walk_name rooted taken (down s (by simp)),
        ih fun s member => down s (by simp [member])]
      simp

/-- From the root there is no way up. -/
theorem walk_true_parent {taken : List Bytes} (down : parent ∉ taken) :
    walk true taken parent = taken.tail := by
  cases taken with
  | nil => rfl
  | cons last taken =>
      have : last ≠ parent := fun e => down (by simp [e])
      simp [walk, this]

theorem parent_not_mem_walk {taken : List Bytes} (down : parent ∉ taken) (s : Bytes) :
    parent ∉ walk true taken s := by
  by_cases hs : s = parent
  · subst hs
    rw [walk_true_parent down]
    exact fun member => down (List.mem_of_mem_tail member)
  · rw [walk_name true taken hs]
    simp [down, Ne.symm hs]

theorem parent_not_mem_foldl {taken : List Bytes} (down : parent ∉ taken) (ss : List Bytes) :
    parent ∉ ss.foldl (walk true) taken := by
  induction ss generalizing taken with
  | nil => exact down
  | cons s ss ih => exact ih (parent_not_mem_walk down s)

theorem parent_not_mem_shortest (ss : List Bytes) : parent ∉ shortest true ss := by
  simp only [shortest, List.mem_reverse]
  exact parent_not_mem_foldl (by simp) ss

theorem isStep_of_mem_foldl (rooted : Bool) {ss taken : List Bytes} (each : ∀ s ∈ ss, IsStep s)
    (before : ∀ s ∈ taken, IsStep s) : ∀ s ∈ ss.foldl (walk rooted) taken, IsStep s := by
  induction ss generalizing taken with
  | nil => exact before
  | cons t ss ih =>
      refine ih (fun s member => each s (by simp [member])) fun s member => ?_
      have last : IsStep t := each t (by simp)
      simp only [walk] at member
      split at member
      · split at member
        · split at member <;> simp at member
          exact member ▸ parent_isStep
        · rename_i top rest
          split at member
          · rcases List.mem_cons.mp member with rfl | member
            · exact parent_isStep
            · exact before s member
          · exact before s (by simp [member])
      · rcases List.mem_cons.mp member with rfl | member
        · exact last
        · exact before s member

theorem isStep_of_mem_shortest (rooted : Bool) {ss : List Bytes} (each : ∀ s ∈ ss, IsStep s) :
    ∀ s ∈ shortest rooted ss, IsStep s := by
  intro s member
  exact isStep_of_mem_foldl rooted each (by simp) s (List.mem_reverse.mp member)

theorem shortest_append_name (rooted : Bool) (ss : List Bytes) {s : Bytes}
    (notParent : s ≠ parent) : shortest rooted (ss ++ [s]) = shortest rooted ss ++ [s] := by
  simp [shortest, List.foldl_append, walk_name rooted _ notParent]

/-- The steps of a walk from anywhere are some ways up and then steps down. -/
theorem foldl_walk_false (ss : List Bytes) :
    ∃ ups names, ss.foldl (walk false) [] = names ++ List.replicate ups parent ∧
      ∀ s ∈ names, s ≠ parent := by
  induction ss using List.reverseRecOn with
  | nil => exact ⟨0, [], rfl, by simp⟩
  | append_singleton ss s ih =>
      obtain ⟨ups, names, reached, down⟩ := ih
      rw [List.foldl_append, reached, List.foldl_cons, List.foldl_nil]
      by_cases hs : s = parent
      · subst hs
        cases names with
        | nil =>
            refine ⟨ups + 1, [], ?_, by simp⟩
            cases ups <;> simp [walk, List.replicate_succ]
        | cons last names =>
            refine ⟨ups, names, ?_, fun s member => down s (by simp [member])⟩
            simp [walk, down last (by simp)]
      · refine ⟨ups, s :: names, ?_, ?_⟩
        · rw [walk_name false _ hs, List.cons_append]
        · intro t member
          rcases List.mem_cons.mp member with rfl | member
          · exact hs
          · exact down t member

/-- A walk may be shortened before it is taken from the root or from below it. -/
theorem foldl_walk_shortest (ss taken : List Bytes) :
    (shortest false ss).foldl (walk true) taken = ss.foldl (walk true) taken := by
  induction ss using List.reverseRecOn with
  | nil => rfl
  | append_singleton ss s ih =>
      rw [List.foldl_append, List.foldl_cons, List.foldl_nil, ← ih]
      by_cases hs : s = parent
      · subst hs
        simp only [shortest, List.foldl_append, List.foldl_cons, List.foldl_nil]
        cases reached : ss.foldl (walk false) [] with
        | nil => simp [walk]
        | cons last before =>
            by_cases hl : last = parent
            · subst hl
              simp [walk, List.foldl_append]
            · simp [walk, hl, List.foldl_append]
      · rw [shortest_append_name false ss hs, List.foldl_append]
        rfl

theorem shortest_shortest (ss : List Bytes) : shortest true (shortest true ss) = shortest true ss := by
  have down := parent_not_mem_shortest ss
  rw [shortest, foldl_walk_names true (fun s member e => down (e ▸ member))]
  simp

/-! ## Ends of paths -/

theorem splitLast_slash (u : Bytes) {v : Bytes} (noSlash : slash ∉ v) :
    splitLast (u ++ slash :: v) = (u ++ [slash], v) := by
  have all : ∀ b ∈ v.reverse, (b != slash) = true := by
    intro b member
    have : b ≠ slash := fun e => noSlash (by simpa [e] using member)
    simpa using this
  simp [splitLast, List.span_eq_takeWhile_dropWhile, List.takeWhile_append_of_pos all,
    List.dropWhile_append_of_pos all]

theorem splitLast_of_noSlash {v : Bytes} (noSlash : slash ∉ v) : splitLast v = ([], v) := by
  have all : ∀ b ∈ v.reverse, (b != slash) = true := by
    intro b member
    have : b ≠ slash := fun e => noSlash (by simpa [e] using member)
    simpa using this
  have whole := List.takeWhile_eq_self_iff.mpr all
  have rest := List.dropWhile_eq_nil_iff.mpr all
  simp [splitLast, List.span_eq_takeWhile_dropWhile, whole, rest]

theorem ofSteps_snoc (rooted : Bool) {t : Bytes} {ss : List Bytes} (s : Bytes) :
    ofSteps rooted (t :: ss ++ [s]) = ofSteps rooted (t :: ss) ++ slash :: s := by
  have long := Bytes.join_snoc [slash] s (t :: ss) (by simp)
  rw [List.append_assoc, List.singleton_append, List.cons_append] at long
  cases rooted with
  | true => simp [ofSteps, long]
  | false => simp [ofSteps, long]

theorem ofSteps_ne_nil (rooted : Bool) {ss : List Bytes} (each : ∀ s ∈ ss, IsStep s) :
    ofSteps rooted ss ≠ [] := by
  cases rooted with
  | true => simp [ofSteps]
  | false =>
      cases ss with
      | nil => decide
      | cons s ss =>
          intro empty
          have steps := steps_ofSteps false each
          rw [empty] at steps
          cases steps

/-- The text before the last step of a path made from steps. -/
theorem splitLast_ofSteps (rooted : Bool) {ss : List Bytes} (each : ∀ s ∈ ss, IsStep s)
    {s : Bytes} (step : IsStep s) :
    steps (splitLast (ofSteps rooted (ss ++ [s]))).1 = ss ∧
      isAbsolute (splitLast (ofSteps rooted (ss ++ [s]))).1 = rooted := by
  cases ss with
  | nil =>
      cases rooted with
      | true =>
          have whole : ofSteps true ([] ++ [s]) = [] ++ slash :: s := by
            simp [ofSteps, Bytes.join_singleton]
          rw [whole, splitLast_slash [] step.noSlash]
          exact ⟨rfl, rfl⟩
      | false =>
          have whole : ofSteps false ([] ++ [s]) = s := by
            simp [ofSteps, Bytes.join_singleton]
          rw [whole, splitLast_of_noSlash step.noSlash]
          exact ⟨rfl, rfl⟩
  | cons t ss =>
      rw [ofSteps_snoc, splitLast_slash _ step.noSlash]
      refine ⟨?_, ?_⟩
      · rw [steps_slash, steps_ofSteps rooted each, steps_nil, List.append_nil]
      · rw [isAbsolute_append (ofSteps_ne_nil rooted each), isAbsolute_ofSteps rooted each]

end Path

/-! ## Locations -/

namespace Host

open SymbolHistory.Path

/-- Where the walk along a path begins: at the root, or with the steps to the working folder. -/
def origin (h : Host) (p : Bytes) : List Bytes := if isAbsolute p then [] else steps h.folder

theorem locate_eq (h : Host) (p : Bytes) : h.locate p = shortest true (h.origin p ++ steps p) := by
  simp only [locate, origin]
  cases isAbsolute p <;> simp

theorem origin_congr (h : Host) {p q : Bytes} (same : isAbsolute p = isAbsolute q) :
    h.origin p = h.origin q := by
  simp only [origin, same]

/-- Paths of the same sort with the same steps lead to the same location. -/
theorem locate_congr (h : Host) {p q : Bytes} (sort : isAbsolute p = isAbsolute q)
    (same : steps p = steps q) : h.locate p = h.locate q := by
  rw [locate_eq, locate_eq, h.origin_congr sort, same]

/-- A path with a name after it leads one step further. -/
theorem locate_append (h : Host) {p q name : Bytes} (sort : isAbsolute q = isAbsolute p)
    (longer : steps q = steps p ++ [name]) (notParent : name ≠ parent) :
    h.locate q = h.locate p ++ [name] := by
  rw [locate_eq, locate_eq, h.origin_congr sort, longer, ← List.append_assoc,
    shortest_append_name true _ notParent]

theorem steps_clean (p : Bytes) : steps (clean p) = shortest (isAbsolute p) (steps p) :=
  steps_ofSteps _ (isStep_of_mem_shortest _ fun _ member => isStep_of_mem_steps member)

theorem isAbsolute_clean (p : Bytes) : isAbsolute (clean p) = isAbsolute p :=
  isAbsolute_ofSteps _ (isStep_of_mem_shortest _ fun _ member => isStep_of_mem_steps member)

@[simp] theorem locate_clean (h : Host) (p : Bytes) : h.locate (clean p) = h.locate p := by
  rw [locate_eq, locate_eq, h.origin_congr (isAbsolute_clean p), steps_clean]
  cases absolute : isAbsolute p with
  | true => simp [origin, absolute, shortest_shortest]
  | false => rw [shortest, List.foldl_append, foldl_walk_shortest, ← List.foldl_append, shortest]

/-- What `join` makes of a path and a name. -/
theorem join_pair (d name : Bytes) (nonempty : name ≠ []) :
    join [d, name] = clean (if d = [] then name else d ++ slash :: name) := by
  have : (name.isEmpty) = false := by simpa using nonempty
  by_cases hd : d = []
  · simp [join, hd, this, Bytes.join_singleton]
  · simp [join, hd, this, Bytes.join_cons_cons, Bytes.join_singleton]

/-- The steps of a path and of one put below it. -/
theorem steps_under (d p : Bytes) :
    steps (if d = [] then p else d ++ slash :: p) = steps d ++ steps p := by
  split
  · rename_i empty
    rw [empty, steps_nil, List.nil_append]
  · rw [steps_slash]

theorem isAbsolute_under (d : Bytes) {p : Bytes} (relative : isAbsolute p = false) :
    isAbsolute (if d = [] then p else d ++ slash :: p) = isAbsolute d := by
  split
  · rename_i empty
    rw [empty, relative]
    rfl
  · rename_i nonempty
    rw [isAbsolute_append nonempty]

theorem steps_below (d : Bytes) {name : Bytes} (isName : IsName name) :
    steps (if d = [] then name else d ++ slash :: name) = steps d ++ [name] := by
  rw [steps_under, steps_of_isStep isName.toIsStep]

theorem isAbsolute_below (d : Bytes) {name : Bytes} (isName : IsName name) :
    isAbsolute (if d = [] then name else d ++ slash :: name) = isAbsolute d :=
  isAbsolute_under d (isAbsolute_of_isStep isName.toIsStep)

/-- Joining a name to a path adds a step to the location. -/
theorem locate_join (h : Host) (d : Bytes) {name : Bytes} (isName : IsName name) :
    h.locate (join [d, name]) = h.locate d ++ [name] := by
  rw [join_pair d name isName.notEmpty, locate_clean]
  exact h.locate_append (isAbsolute_below d isName) (steps_below d isName) isName.notParent

/-- The path up to its last step leads to where the joined path was joined to. -/
theorem locate_dir_join (h : Host) (d : Bytes) {name : Bytes} (isName : IsName name) :
    h.locate (dir (join [d, name])) = h.locate d := by
  rw [dir, locate_clean, join_pair d name isName.notEmpty, clean, steps_below d isName,
    isAbsolute_below d isName, shortest_append_name _ _ isName.notParent]
  obtain ⟨front, sort⟩ := splitLast_ofSteps (isAbsolute d)
    (isStep_of_mem_shortest (isAbsolute d) fun _ member => isStep_of_mem_steps (p := d) member)
    isName.toIsStep
  rw [← h.locate_clean d]
  exact h.locate_congr (sort.trans (isAbsolute_clean d).symm) (front.trans (steps_clean d).symm)

/-- A name written right behind a folder's path leads into the folder. -/
theorem locate_inside (h : Host) {d name : Bytes} (nonempty : d ≠ []) (isName : IsName name) :
    h.locate ((if Bytes.endsWith [slash] d then d else d ++ [slash]) ++ name) =
      h.locate d ++ [name] := by
  have own := steps_of_isStep isName.toIsStep
  split
  · rename_i ended
    obtain ⟨u, rfl⟩ : ∃ u, d = u ++ [slash] := by
      simp only [Bytes.endsWith, List.isPrefixOf_iff_prefix] at ended
      obtain ⟨rest, same⟩ := ended
      exact ⟨rest.reverse, by simpa using (congrArg List.reverse same).symm⟩
    have here : steps (u ++ [slash]) = steps u := by
      rw [steps_slash, steps_nil, List.append_nil]
    refine h.locate_append ?_ ?_ isName.notParent
    · exact isAbsolute_append nonempty name
    · rw [here, List.append_assoc, List.singleton_append, steps_slash, own]
  · refine h.locate_append ?_ ?_ isName.notParent
    · rw [List.append_assoc, isAbsolute_append nonempty]
    · rw [List.append_assoc, List.singleton_append, steps_slash, own]

theorem foldl_walk_parents (ups : Nat) {taken : List Bytes} (down : parent ∉ taken) :
    (List.replicate ups parent).foldl (walk true) taken = taken.drop ups := by
  induction ups generalizing taken with
  | zero => rfl
  | succ ups ih =>
      rw [List.replicate_succ, List.foldl_cons, walk_true_parent down,
        ih fun member => down (List.mem_of_mem_tail member), List.drop_tail]

/-- The first part of a shortened walk ends on the way to where the walk ends, or on the way to
where it began. -/
theorem shortest_part (start : List Bytes) {ss u v : List Bytes}
    (parts : shortest false ss = u ++ v) :
    shortest true (start ++ u) <+: shortest true (start ++ (u ++ v)) ∨
      shortest true (start ++ u) <+: shortest true start := by
  obtain ⟨ups, names, reached, down⟩ := foldl_walk_false ss
  have noParent : parent ∉ start.foldl (walk true) [] := parent_not_mem_foldl (by simp) start
  rw [shortest, reached, List.reverse_append, List.reverse_replicate] at parts
  simp only [shortest, List.foldl_append]
  rcases List.append_eq_append_iff.mp parts.symm with ⟨rest, within, -⟩ | ⟨w, beyond, rest⟩
  · right
    obtain ⟨j, rfl⟩ : ∃ j, u = List.replicate j parent :=
      ⟨u.length, List.eq_replicate_of_mem fun s member =>
        List.eq_of_mem_replicate (n := ups) (by rw [within]; simp [member])⟩
    rw [foldl_walk_parents j noParent, List.reverse_prefix]
    exact List.drop_suffix _ _
  · left
    have names_u : ∀ s ∈ w, s ≠ parent := fun s member =>
      down s (List.mem_reverse.mp (by rw [rest]; simp [member]))
    have names_v : ∀ s ∈ v, s ≠ parent := fun s member =>
      down s (List.mem_reverse.mp (by rw [rest]; simp [member]))
    rw [foldl_walk_names true names_v, List.reverse_append, List.reverse_reverse]
    exact List.prefix_append _ _

theorem eq_take_of_mem_ancestors {p a : Bytes} (member : a ∈ ancestors p) :
    a = p ∨ ∃ rest, p = a ++ slash :: rest ∧ a ≠ [] := by
  simp only [ancestors, List.mem_append, List.mem_map, List.mem_filter, List.mem_singleton,
    Prod.exists] at member
  rcases member with ⟨b, i, ⟨found, good⟩, rfl⟩ | rfl
  · right
    obtain ⟨inside, bth⟩ := List.mem_zipIdx' found
    simp only [Bool.and_eq_true, beq_iff_eq, bne_iff_ne] at good
    refine ⟨p.drop (i + 1), ?_, ?_⟩
    · rw [← good.1, bth, List.getElem_cons_drop, List.take_append_drop]
    · intro empty
      rcases List.take_eq_nil_iff.mp empty with zero | rfl
      · exact good.2 zero
      · simp at inside
  · exact .inl rfl

/-- The paths on the way to a clean path lead to places on the way to its location or to the
working folder. -/
theorem locate_ancestors (h : Host) {p a : Bytes} (member : a ∈ ancestors (clean p)) :
    h.locate a <+: h.locate (clean p) ∨ h.locate a <+: h.locate [] := by
  rcases eq_take_of_mem_ancestors member with rfl | ⟨rest, whole, nonempty⟩
  · exact .inl (List.prefix_refl _)
  · have sort : isAbsolute a = isAbsolute (clean p) := by rw [whole, isAbsolute_append nonempty]
    have parts : steps (clean p) = steps a ++ steps rest := by rw [whole, steps_slash]
    have clean_steps := steps_clean p
    rw [locate_eq, locate_eq, h.origin_congr sort, parts]
    rw [parts] at clean_steps
    cases absolute : isAbsolute p with
    | true =>
        have rooted : h.origin (clean p) = [] := by simp [origin, isAbsolute_clean, absolute]
        rw [absolute] at clean_steps
        have noParent := parent_not_mem_shortest (steps p)
        rw [← clean_steps] at noParent
        left
        rw [rooted, List.nil_append, List.nil_append, shortest, shortest,
          foldl_walk_names true fun s hs e => noParent (by simp [← e, hs]),
          foldl_walk_names true fun s hs e => noParent (e ▸ hs)]
        simp
    | false =>
        rw [absolute] at clean_steps
        rcases shortest_part (h.origin (clean p)) clean_steps.symm with before | home
        · exact .inl before
        · right
          have relative : h.origin (clean p) = h.origin [] :=
            h.origin_congr ((isAbsolute_clean p).trans absolute)
          rw [locate_eq, steps_nil, List.append_nil, ← relative]
          exact home

theorem clean_ne_nil (p : Bytes) : clean p ≠ [] :=
  ofSteps_ne_nil _ (isStep_of_mem_shortest _ fun _ member => isStep_of_mem_steps member)

theorem dir_ne_nil (p : Bytes) : dir p ≠ [] := clean_ne_nil _

end Host

end SymbolHistory
