/-
# Proofs.Trees -- what a file tree holds after a change

A tree is well formed when whatever it holds is in a folder.  On such a tree
`find` is `get?` up to names that are too long (`find_eq_ok_iff`), so that
statements need only `get?`.

Two relations describe all changes that the index makes: `Grows l` makes folders
on the way to `l` where nothing was, and `Puts l data` then makes `l` a file
with a given content (`Lands d l data` does so wherever `d` is).  Neither touches
anything else.  Many of them make a tree
`Filled` with files that were not there, and keep all changes `Within` a folder.
Changes `Aside` from some names of a folder leave all that is under these names.
-/
import SymbolHistory.Host.FileTree

set_option autoImplicit false

namespace SymbolHistory

namespace FileTree

/-- Whatever is there is in a folder. -/
def WellFormed (t : FileTree) : Prop :=
  ∀ l s, (t.get? (l ++ [s])).isSome → t.get? l = some .folder

/-- No step has too long a name. -/
def Short (l : Location) : Prop := ∀ s ∈ l, s.length ≤ maxName

/-- A tree is well formed if each of its nodes is in a folder. -/
theorem wellFormed_iff_nodes {t : FileTree} :
    t.WellFormed ↔ ∀ p ∈ t.nodes, t.get? p.1.dropLast = some .folder := by
  have there_iff : ∀ l s, (t.get? (l ++ [s])).isSome ↔ ∃ p ∈ t.nodes, p.1 = l ++ [s] := by
    intro l s
    rw [get?, if_neg (by simp), Option.isSome_map, List.find?_isSome]
    simp only [beq_iff_eq]
  constructor
  · intro wellFormed p member
    rcases List.eq_nil_or_concat p.1 with root | ⟨l, s, isPath⟩
    · rw [root]
      rfl
    · rw [List.concat_eq_append] at isPath
      rw [isPath, List.dropLast_concat]
      exact wellFormed l s ((there_iff l s).mpr ⟨p, member, isPath⟩)
  · intro each l s there
    obtain ⟨p, member, isPath⟩ := (there_iff l s).mp there
    have parent := each p member
    rwa [isPath, List.dropLast_concat] at parent

instance (t : FileTree) : Decidable t.WellFormed := decidable_of_iff _ wellFormed_iff_nodes.symm

/-- Everything on the way to something is a folder. -/
theorem WellFormed.get?_append {t : FileTree} (wf : t.WellFormed) (l rest : Location)
    (nonempty : rest ≠ []) (there : (t.get? (l ++ rest)).isSome) : t.get? l = some .folder := by
  induction rest generalizing l with
  | nil => exact absurd rfl nonempty
  | cons s rest ih =>
      cases rest with
      | nil => exact wf l s there
      | cons s' rest =>
          have next := ih (l ++ [s]) (by simp) (by simpa using there)
          exact wf l s (by simp [next])

theorem WellFormed.get?_dropLast {t : FileTree} (wf : t.WellFormed) {l : Location}
    (there : (t.get? l).isSome) : t.get? l.dropLast = some .folder := by
  rcases List.eq_nil_or_concat l with rfl | ⟨front, last, rfl⟩
  · rfl
  · rw [List.concat_eq_append] at there ⊢
    rw [List.dropLast_concat]
    exact wf front last there

theorem WellFormed.get?_prefix {t : FileTree} (wf : t.WellFormed) {k l : Location}
    (onTheWay : k <+: l) (home : t.get? l = some .folder) : t.get? k = some .folder := by
  obtain ⟨rest, rfl⟩ := onTheWay
  cases rest with
  | nil => simpa using home
  | cons s rest => exact wf.get?_append k (s :: rest) (by simp) (by simp [home])

/-! ## Finding -/

theorem follow_eq_ok_iff {t : FileTree} (wf : t.WellFormed) (l : Location) :
    ∀ (done : Location) (n : Node),
      t.follow done l = .ok n ↔ t.get? (done ++ l) = some n ∧ Short l := by
  induction l with
  | nil =>
      intro done n
      cases there : t.get? done <;> simp [follow, there, Short]
  | cons s rest ih =>
      intro done n
      have onTheWay : t.get? (done ++ s :: rest) = some n → t.get? done = some .folder :=
        fun there => wf.get?_append done (s :: rest) (by simp) (by simp [there])
      simp only [follow]
      cases here : t.get? done with
      | none =>
          refine ⟨by simp, fun ⟨there, _⟩ => ?_⟩
          rw [onTheWay there] at here
          cases here
      | some node =>
          cases node with
          | file content executable =>
              refine ⟨by simp, fun ⟨there, _⟩ => ?_⟩
              rw [onTheWay there] at here
              cases here
          | folder =>
              by_cases long : maxName < s.length
              · simp only [long, if_true, reduceCtorEq, false_iff, not_and]
                intro _ short
                exact absurd (short s (by simp)) (by omega)
              · simp only [long, if_false]
                rw [ih]
                simp only [List.append_assoc, List.singleton_append, Short, List.mem_cons,
                  forall_eq_or_imp]
                constructor
                · exact fun ⟨there, short⟩ => ⟨there, by omega, short⟩
                · exact fun ⟨there, _, short⟩ => ⟨there, short⟩

/-- On a well-formed tree a location is found when something is there, unless a name is too
long. -/
theorem find_eq_ok_iff {t : FileTree} (wf : t.WellFormed) {l : Location} {n : Node} :
    t.find l = .ok n ↔ t.get? l = some n ∧ Short l := follow_eq_ok_iff wf l [] n

theorem admits_eq_ok {t : FileTree} (wf : t.WellFormed) {l : Location}
    (admitted : t.admits l = .ok ()) : t.get? l.dropLast = some .folder ∧ Short l := by
  simp only [admits] at admitted
  split at admitted
  · cases admitted
  · cases admitted
  · rename_i found
    obtain ⟨parent, short⟩ := (find_eq_ok_iff wf).mp found
    refine ⟨parent, ?_⟩
    split at admitted
    · cases admitted
    · rename_i fits
      intro s member
      rcases List.eq_nil_or_concat l with rfl | ⟨front, last, rfl⟩
      · simp at member
      · rw [List.concat_eq_append] at short fits member
        rw [List.dropLast_concat] at short
        rw [List.getLast?_concat, Option.getD_some] at fits
        rcases List.mem_append.mp member with inside | isLast
        · exact short s inside
        · rw [List.mem_singleton.mp isLast]
          omega

/-! ## Changing -/

theorem set_wellFormed {t : FileTree} (wf : t.WellFormed) {l : Location} {n : Node}
    (nonempty : l ≠ []) (parent : t.get? l.dropLast = some .folder)
    (leaf : n = .folder ∨ t.get? l ≠ some .folder) :
    (t.set l n).WellFormed := by
  intro k s there
  rw [get?_set t l _ n nonempty] at there ⊢
  split at there
  · rename_i isNew
    have : k = l.dropLast := by rw [← isNew, List.dropLast_concat]
    subst this
    split
    · rename_i same
      have shorter := congrArg List.length same
      have positive := List.length_pos_iff.mpr nonempty
      rw [List.length_dropLast] at shorter
      omega
    · exact parent
  · have before := wf k s there
    split
    · rename_i same
      subst same
      rcases leaf with rfl | notFolder
      · rfl
      · exact absurd before notFolder
    · exact before

theorem erase_wellFormed {t : FileTree} (wf : t.WellFormed) {l : Location}
    (nonempty : l ≠ []) (leaf : t.get? l ≠ some .folder) : (t.erase l).WellFormed := by
  intro k s there
  rw [get?_erase t l _ nonempty] at there ⊢
  split at there
  · cases there
  · have before := wf k s there
    split
    · rename_i same
      exact absurd (same ▸ before) leaf
    · exact before

/-- `u` is `t` with folders made on the way to `l`. -/
def Grows (l : Location) (t u : FileTree) : Prop :=
  ∀ k, u.get? k = t.get? k ∨ k <+: l ∧ t.get? k = none ∧ u.get? k = some .folder

/-- `u` is `t` with a file put at `l`, in a folder that may have been made for it. -/
def Puts (l : Location) (data : Bytes) (t u : FileTree) : Prop :=
  ∃ m, Grows l.dropLast t m ∧
    ∀ k, u.get? k = if k = l then some (.file data false) else m.get? k

/-- `u` is `t` with a file put at `l`, after folders were made on the way to `d`. -/
def Lands (d l : Location) (data : Bytes) (t u : FileTree) : Prop :=
  ∃ m, Grows d t m ∧ ∀ k, u.get? k = if k = l then some (.file data false) else m.get? k

/-- A file that lands in the folder made for it is put there. -/
theorem puts_iff_lands {l : Location} {data : Bytes} {t u : FileTree} :
    Puts l data t u ↔ Lands l.dropLast l data t u := Iff.rfl

namespace Grows

variable {l k : Location} {t u m : FileTree}

theorem refl (l : Location) (t : FileTree) : Grows l t t := fun _ => .inl rfl

theorem trans (first : Grows l t m) (second : Grows l m u) : Grows l t u := by
  intro k
  rcases first k with same | ⟨way, absent, made⟩
  · rcases second k with same' | ⟨way, absent, made⟩
    · exact .inl (same'.trans same)
    · exact .inr ⟨way, same ▸ absent, made⟩
  · rcases second k with same' | ⟨-, absent', -⟩
    · exact .inr ⟨way, absent, same'.trans made⟩
    · rw [made] at absent'
      cases absent'

/-- What was there stays. -/
theorem get?_some {n : Node} (grows : Grows l t u) (there : t.get? k = some n) :
    u.get? k = some n := by
  rcases grows k with same | ⟨-, absent, -⟩
  · rw [same, there]
  · rw [there] at absent
    cases absent

/-- Nothing changes off the way. -/
theorem get?_off (grows : Grows l t u) (off : ¬k <+: l) : u.get? k = t.get? k := by
  rcases grows k with same | ⟨way, -, -⟩
  · exact same
  · exact absurd way off

end Grows

/-- What was there stays, unless the file takes its place. -/
theorem Lands.get?_some {d l k : Location} {data : Bytes} {t u : FileTree} {n : Node}
    (lands : Lands d l data t u) (other : k ≠ l) (there : t.get? k = some n) :
    u.get? k = some n := by
  obtain ⟨m, grows, after⟩ := lands
  rw [after, if_neg other]
  exact grows.get?_some there

namespace Puts

variable {l k : Location} {data : Bytes} {t u : FileTree}

/-- Nothing changes off the way to the file. -/
theorem get?_off (puts : Puts l data t u) (off : ¬k <+: l) : u.get? k = t.get? k := by
  obtain ⟨m, grows, there⟩ := puts
  have other : k ≠ l := fun e => off (e ▸ List.prefix_refl k)
  rw [there, if_neg other]
  exact grows.get?_off fun way => off (way.trans (List.dropLast_prefix l))

end Puts

/-- `u` is `t` but for what is at `l` or below, and for folders made on the way to it. -/
def Within (l : Location) (t u : FileTree) : Prop :=
  ∀ k, u.get? k = t.get? k ∨ l <+: k ∨ k <+: l ∧ t.get? k = none ∧ u.get? k = some .folder

namespace Within

variable {l : Location} {t u m : FileTree}

theorem refl (l : Location) (t : FileTree) : Within l t t := fun _ => .inl rfl

theorem trans (first : Within l t m) (second : Within l m u) : Within l t u := by
  intro k
  rcases first k with same | below | ⟨way, absent, made⟩
  · rw [← same]
    exact second k
  · exact .inr (.inl below)
  · rcases second k with same' | below | ⟨-, absent', -⟩
    · exact .inr (.inr ⟨way, absent, same'.trans made⟩)
    · exact .inr (.inl below)
    · rw [made] at absent'
      cases absent'

end Within

/-- `u` is `t` with files `made` where nothing was, and with folders made on the way to `d`. -/
structure Filled (d : Location) (made : List (Location × Bytes)) (t u : FileTree) : Prop where
  new : ∀ e ∈ made, t.get? e.1 = none ∧ u.get? e.1 = some (.file e.2 false)
  old : ∀ k, (∀ e ∈ made, k ≠ e.1) →
    u.get? k = t.get? k ∨ k <+: d ∧ t.get? k = none ∧ u.get? k = some .folder

namespace Filled

variable {d k : Location} {made : List (Location × Bytes)} {t u v : FileTree}

theorem refl (d : Location) (t : FileTree) : Filled d [] t t := ⟨by simp, fun _ _ => .inl rfl⟩

theorem grow (filled : Filled d made t u) (grows : Grows d u v) : Filled d made t v where
  new e member := ⟨(filled.new e member).1, grows.get?_some (filled.new e member).2⟩
  old k other := by
    rcases filled.old k other with same | ⟨way, absent, folder⟩
    · rw [← same]
      exact grows k
    · exact .inr ⟨way, absent, grows.get?_some folder⟩

/-- One more file. -/
theorem put {name data : Bytes} (filled : Filled d made t u) (puts : Puts (d ++ [name]) data u v)
    (absent : t.get? (d ++ [name]) = none) (other : ∀ e ∈ made, e.1 ≠ d ++ [name]) :
    Filled d (made ++ [(d ++ [name], data)]) t v := by
  obtain ⟨m, grows, after⟩ := puts
  rw [List.dropLast_concat] at grows
  have grown := filled.grow grows
  constructor
  · intro e member
    rcases List.mem_append.mp member with before | isNew
    · rw [after, if_neg (other e before)]
      exact grown.new e before
    · rw [List.mem_singleton.mp isNew]
      exact ⟨absent, by rw [after, if_pos rfl]⟩
  · intro k different
    have notNew : k ≠ d ++ [name] := different (d ++ [name], data) (by simp)
    rw [after, if_neg notNew]
    exact grown.old k fun e member => different e (by simp [member])

/-- What was there stays. -/
theorem get?_some {n : Node} (filled : Filled d made t u) (there : t.get? k = some n) :
    u.get? k = some n := by
  have other : ∀ e ∈ made, k ≠ e.1 := by
    rintro e member rfl
    rw [(filled.new e member).1] at there
    cases there
  rcases filled.old k other with same | ⟨-, absent, -⟩
  · rw [same, there]
  · rw [there] at absent
    cases absent

theorem trans {more : List (Location × Bytes)} (first : Filled d made t u) (second : Filled d more u v) :
    Filled d (made ++ more) t v where
  new e member := by
    rcases List.mem_append.mp member with before | after
    · exact ⟨(first.new e before).1, second.get?_some (first.new e before).2⟩
    · refine ⟨?_, (second.new e after).2⟩
      cases there : t.get? e.1 with
      | none => rfl
      | some n =>
          have kept := first.get?_some there
          rw [(second.new e after).1] at kept
          cases kept
  old k other := by
    have notMade : ∀ e ∈ made, k ≠ e.1 := fun e member => other e (List.mem_append_left _ member)
    rcases first.old k notMade with same | ⟨way, absent, folder⟩
    · rw [← same]
      exact second.old k fun e member => other e (List.mem_append_right _ member)
    · exact .inr ⟨way, absent, second.get?_some folder⟩

theorem within {l : Location} (filled : Filled d made t u) (below : l <+: d)
    (inside : ∀ e ∈ made, d <+: e.1) : Within l t u := by
  intro k
  by_cases isNew : ∃ e ∈ made, k = e.1
  · obtain ⟨e, member, rfl⟩ := isNew
    exact .inr (.inl (below.trans (inside e member)))
  · have other : ∀ e ∈ made, k ≠ e.1 := fun e member same => isNew ⟨e, member, same⟩
    rcases filled.old k other with same | ⟨way, absent, folder⟩
    · exact .inl same
    · rcases List.prefix_or_prefix_of_prefix way below with above | deeper
      · exact .inr (.inr ⟨above, absent, folder⟩)
      · exact .inr (.inl deeper)

end Filled

/-- `u` is `t` but for what is in the folder `r` under names that are not `apart`, and for folders
made on the way to it. -/
def Aside (r : Location) (apart : List Bytes) (t u : FileTree) : Prop :=
  ∀ k, u.get? k = t.get? k ∨ (∃ name, name ∉ apart ∧ r ++ [name] <+: k) ∨
    k <+: r ∧ t.get? k = none ∧ u.get? k = some .folder

namespace Aside

variable {r k : Location} {apart : List Bytes} {t u m : FileTree}

theorem refl (r : Location) (apart : List Bytes) (t : FileTree) : Aside r apart t t :=
  fun _ => .inl rfl

theorem trans (first : Aside r apart t m) (second : Aside r apart m u) : Aside r apart t u := by
  intro k
  rcases first k with same | inside | ⟨way, absent, made⟩
  · rw [← same]
    exact second k
  · exact .inr (.inl inside)
  · rcases second k with same' | inside | ⟨-, absent', -⟩
    · exact .inr (.inr ⟨way, absent, same'.trans made⟩)
    · exact .inr (.inl inside)
    · rw [made] at absent'
      cases absent'

/-- What is under a name that is kept apart is as it was. -/
theorem get?_apart (aside : Aside r apart t u) {name : Bytes} (isApart : name ∈ apart)
    (below : r ++ [name] <+: k) : u.get? k = t.get? k := by
  rcases aside k with same | ⟨other, notApart, inside⟩ | ⟨way, -, -⟩
  · exact same
  · have lengths : (r ++ [other]).length = (r ++ [name]).length := by simp
    have same := (List.prefix_of_prefix_length_le inside below (Nat.le_of_eq lengths)).eq_of_length lengths
    rw [List.append_cancel_left_eq, List.cons.injEq] at same
    exact absurd isApart (same.1 ▸ notApart)
  · have := (below.trans way).length_le
    rw [List.length_append, List.length_singleton] at this
    omega

theorem fewer {fewer : List Bytes} (aside : Aside r apart t u) (subset : fewer ⊆ apart) :
    Aside r fewer t u := by
  intro k
  rcases aside k with same | ⟨name, notApart, inside⟩ | made
  · exact .inl same
  · exact .inr (.inl ⟨name, fun member => notApart (subset member), inside⟩)
  · exact .inr (.inr made)

theorem within (aside : Aside r apart t u) : Within r t u := by
  intro k
  rcases aside k with same | ⟨name, -, inside⟩ | made
  · exact .inl same
  · exact .inr (.inl ((List.prefix_append _ _).trans inside))
  · exact .inr (.inr made)

end Aside

theorem Grows.aside {r l : Location} {t u : FileTree} (grows : Grows l t u) {apart : List Bytes}
    (other : ∀ name, r ++ [name] <+: l → name ∉ apart) (below : r <+: l) : Aside r apart t u := by
  intro k
  rcases grows k with same | ⟨way, absent, made⟩
  · exact .inl same
  · rcases List.prefix_or_prefix_of_prefix way below with above | ⟨rest, inside⟩
    · exact .inr (.inr ⟨above, absent, made⟩)
    · cases rest with
      | nil =>
          rw [List.append_nil] at inside
          exact .inr (.inr ⟨inside ▸ List.prefix_rfl, absent, made⟩)
      | cons name rest =>
          have step : r ++ [name] <+: k := ⟨rest, by simpa using inside⟩
          exact .inr (.inl ⟨name, other name (step.trans way), step⟩)

theorem Puts.aside {r rest : Location} {name data : Bytes} {t u : FileTree}
    (puts : Puts (r ++ name :: rest) data t u) {apart : List Bytes} (other : name ∉ apart) :
    Aside r apart t u := by
  obtain ⟨m, grows, after⟩ := puts
  intro k
  by_cases here : k = r ++ name :: rest
  · exact .inr (.inl ⟨name, other, ⟨rest, by simp [here]⟩⟩)
  · rw [after, if_neg here]
    rcases grows k with same | ⟨way, absent, made⟩
    · exact .inl same
    · have way := way.trans (List.dropLast_prefix _)
      rcases List.prefix_or_prefix_of_prefix way (List.prefix_append r _) with above | ⟨deeper, rfl⟩
      · exact .inr (.inr ⟨above, absent, made⟩)
      · cases deeper with
        | nil => exact .inr (.inr ⟨by simp, absent, made⟩)
        | cons step deeper =>
            rw [List.prefix_append_right_inj, List.cons_prefix_cons] at way
            exact .inr (.inl ⟨step, way.1 ▸ other, ⟨deeper, by simp⟩⟩)

theorem Filled.aside {r : Location} {name : Bytes} {made : List (Location × Bytes)}
    {t u : FileTree} (filled : Filled (r ++ [name]) made t u) {apart : List Bytes}
    (other : name ∉ apart) (inside : ∀ e ∈ made, r ++ [name] <+: e.1) : Aside r apart t u := by
  intro k
  by_cases isNew : ∃ e ∈ made, k = e.1
  · obtain ⟨e, member, rfl⟩ := isNew
    exact .inr (.inl ⟨name, other, inside e member⟩)
  · have old : ∀ e ∈ made, k ≠ e.1 := fun e member same => isNew ⟨e, member, same⟩
    rcases filled.old k old with same | ⟨way, absent, folder⟩
    · exact .inl same
    · rcases List.prefix_concat_iff.mp way with rfl | above
      · exact .inr (.inl ⟨name, other, List.prefix_rfl⟩)
      · exact .inr (.inr ⟨above, absent, folder⟩)

/-- `u` is `t` but for what is at `l`. -/
def Only (l : Location) (t u : FileTree) : Prop := ∀ k, k ≠ l → u.get? k = t.get? k

theorem Only.refl (l : Location) (t : FileTree) : Only l t t := fun _ _ => rfl

theorem Only.trans {l : Location} {t u v : FileTree} (first : Only l t u) (second : Only l u v) :
    Only l t v := fun k other => (second k other).trans (first k other)

theorem Only.set {l : Location} (nonempty : l ≠ []) (t : FileTree) (n : Node) :
    Only l t (t.set l n) := by
  intro k other
  rw [get?_set _ _ _ _ nonempty, if_neg other]

theorem Only.erase {l : Location} (nonempty : l ≠ []) (t : FileTree) : Only l t (t.erase l) := by
  intro k other
  rw [get?_erase _ _ _ nonempty, if_neg other]

theorem Only.aside {r : Location} {name : Bytes} {t u : FileTree} (only : Only (r ++ [name]) t u)
    {apart : List Bytes} (other : name ∉ apart) : Aside r apart t u := by
  intro k
  by_cases here : k = r ++ [name]
  · exact .inr (.inl ⟨name, other, here ▸ List.prefix_rfl⟩)
  · exact .inl (only k here)

end FileTree

end SymbolHistory
