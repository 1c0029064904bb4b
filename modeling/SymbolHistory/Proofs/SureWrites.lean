/-
# Proofs.SureWrites -- a file is written wherever one can be

`Takes h dest size` lists all that can stand in the way of writing `size` bytes
to `dest`: a path with a flaw or too long, a file on the way or a folder at its
end, a temporary name that is taken, too little room.  Where nothing does, the
folders on the way are made (`makeFolders_makes`, by recursion along the path), a
temporary file is begun (`create_makes`) and moved (`commit_makes`), and so the
text is written (`writeAll_makes`).

Work that reads before it writes succeeds wherever the text that it comes to can
be written (`on_writing`).
-/
import Mathlib.Algebra.Group.Int.Defs
import Mathlib.Algebra.Group.Nat.Defs
import Mathlib.Algebra.GroupWithZero.Nat
import SymbolHistory.Proofs.ProperTrees

set_option autoImplicit false

namespace SymbolHistory

open SymbolHistory.Path FileTree Run Host

namespace Path

/-! ## Steps of clean paths -/

/-- A way up takes back the last step. -/
theorem shortest_append_parent (ss : List Bytes) :
    shortest true (ss ++ [parent]) = (shortest true ss).dropLast := by
  have down : parent ∉ ss.foldl (walk true) [] := parent_not_mem_foldl (by simp) ss
  rw [shortest, List.foldl_append, List.foldl_cons, List.foldl_nil, walk_true_parent down, shortest,
    List.dropLast_reverse]

theorem ancestors_of_noSlash {p : Bytes} (one : ∀ b i, p[i]? = some b → b = slash → i = 0) :
    ancestors p = [p] := by
  have none : p.zipIdx.filter (fun b => b.1 == slash && b.2 != 0) = [] := by
    rw [List.filter_eq_nil_iff]
    rintro ⟨b, i⟩ member both
    simp only [Bool.and_eq_true, beq_iff_eq, bne_iff_ne] at both
    exact both.2 (one b i (List.mem_zipIdx_iff_getElem?.mp member) both.1)
  rw [ancestors, none]
  rfl

theorem ancestors_append {p s : Bytes} (nonempty : p ≠ []) (noSlash : slash ∉ s) :
    ancestors (p ++ slash :: s) = ancestors p ++ [p ++ slash :: s] := by
  have behind : (s.zipIdx (p.length + 1)).filter (fun b => b.1 == slash && b.2 != 0) = [] := by
    rw [List.filter_eq_nil_iff]
    rintro ⟨b, i⟩ member both
    simp only [Bool.and_eq_true, beq_iff_eq] at both
    exact noSlash (both.1 ▸ (List.mem_zipIdx member).2.2 ▸ List.getElem_mem _)
  have here : (slash == slash && p.length != 0) = true := by
    simpa using nonempty
  have ends : (p ++ slash :: s).zipIdx.filter (fun b => b.1 == slash && b.2 != 0) =
      p.zipIdx.filter (fun b => b.1 == slash && b.2 != 0) ++ [(slash, p.length)] := by
    rw [List.zipIdx_append, List.filter_append, List.zipIdx_cons, List.filter_cons, Nat.zero_add]
    simp only [here, if_true, behind]
  have same : (p.zipIdx.filter (fun b => b.1 == slash && b.2 != 0)).map
      (fun b => (p ++ slash :: s).take b.2) =
      (p.zipIdx.filter (fun b => b.1 == slash && b.2 != 0)).map fun b => p.take b.2 := by
    refine List.map_congr_left fun b member => ?_
    have inside := (List.mem_zipIdx (List.mem_filter.mp member).1).2.1
    rw [List.take_append_of_le_length (by omega)]
  rw [ancestors, ends, List.map_append, same, ancestors]
  simp

/-- On the way to one more step are the paths on the way to the steps before it. -/
theorem ancestors_ofSteps (rooted : Bool) {ss : List Bytes} (each : ∀ t ∈ ss, IsStep t) {s : Bytes}
    (step : IsStep s) :
    ancestors (ofSteps rooted (ss ++ [s])) =
      (if ss = [] then [] else ancestors (ofSteps rooted ss)) ++ [ofSteps rooted (ss ++ [s])] := by
  cases ss with
  | nil =>
      rw [if_pos rfl, List.nil_append]
      refine ancestors_of_noSlash fun b i found isSlash => ?_
      have inName : ∀ j, s[j]? = some b → False := fun j at_ =>
        step.noSlash (isSlash ▸ List.mem_of_getElem? at_)
      rw [ofSteps, Bytes.join_singleton] at found
      cases rooted with
      | false => exact absurd found (inName i)
      | true =>
          cases i with
          | zero => rfl
          | succ i => exact absurd found (inName i)
  | cons t ss =>
      rw [if_neg (by simp), ofSteps_snoc]
      exact ancestors_append (ofSteps_ne_nil rooted each) step.noSlash

/-! ## The length of clean paths -/

/-- How long steps are, with a slash behind each. -/
def span (ss : List Bytes) : Nat := (ss.map fun s => s.length + 1).sum

theorem span_append (ss ts : List Bytes) : span (ss ++ ts) = span ss + span ts := by
  simp [span]

theorem span_splitOn (p : Bytes) : span (Bytes.splitOn slash p) = p.length + 1 := by
  induction p with
  | nil => rfl
  | cons b p ih =>
      by_cases isSlash : b = slash
      · rw [isSlash, Bytes.splitOn_sep, ← List.singleton_append, span_append, ih, List.length_cons]
        simp [span, Nat.add_comm]
      · obtain ⟨head, tail, short, long⟩ := Bytes.splitOn_cons isSlash p
        rw [short] at ih
        rw [long]
        simp only [span, List.map_cons, List.sum_cons, List.length_cons] at ih ⊢
        omega

theorem span_le_of_sublist {ss ts : List Bytes} (sublist : ss.Sublist ts) : span ss ≤ span ts := by
  induction sublist with
  | slnil => exact Nat.le_refl _
  | cons t _ ih =>
      simp only [span, List.map_cons, List.sum_cons] at ih ⊢
      omega
  | cons_cons t _ ih =>
      simp only [span, List.map_cons, List.sum_cons] at ih ⊢
      omega

theorem span_steps_le (p : Bytes) : span (steps p) ≤ p.length + 1 := by
  rw [← span_splitOn p]
  exact span_le_of_sublist List.filter_sublist

theorem span_cons (s : Bytes) (ss : List Bytes) : span (s :: ss) = s.length + 1 + span ss := by
  simp [span]

theorem span_le {ss : List Bytes} (short : Short ss) : span ss ≤ (maxName + 1) * ss.length := by
  induction ss with
  | nil => exact Nat.le_refl _
  | cons s ss ih =>
      have first := short s List.mem_cons_self
      have rest := ih fun t member => short t (List.mem_cons_of_mem s member)
      rw [span_cons, List.length_cons, Nat.mul_succ]
      omega

theorem span_walk_le (rooted : Bool) (taken : List Bytes) (s : Bytes) :
    span (walk rooted taken s) ≤ span taken + (s.length + 1) := by
  by_cases up : s = parent
  · subst up
    cases taken with
    | nil => cases rooted <;> decide
    | cons last before =>
        rw [walk, if_pos (beq_self_eq_true _)]
        split
        · rw [span_cons parent]
          omega
        · rw [span_cons]
          omega
  · rw [walk_name rooted taken up, span_cons]
    omega

theorem span_shortest_le (rooted : Bool) (ss : List Bytes) : span (shortest rooted ss) ≤ span ss := by
  have walks : ∀ (ss taken : List Bytes), span (ss.foldl (walk rooted) taken) ≤ span taken + span ss := by
    intro ss
    induction ss with
    | nil => exact fun _ => Nat.le_refl _
    | cons s ss ih =>
        intro taken
        have first := span_walk_le rooted taken s
        have rest := ih (walk rooted taken s)
        rw [List.foldl_cons, span_cons]
        omega
  have whole := walks ss []
  rw [shortest]
  simp only [span, List.map_reverse, List.sum_reverse, List.map_nil, List.sum_nil, Nat.zero_add] at whole ⊢
  exact whole

theorem length_join_le (ss : List Bytes) : (Bytes.join [slash] ss).length ≤ span ss := by
  induction ss with
  | nil => exact Nat.zero_le _
  | cons s ss ih =>
      cases ss with
      | nil => simp [Bytes.join_singleton, span]
      | cons t ss =>
          rw [Bytes.join_cons_cons]
          simp only [span, List.map_cons, List.sum_cons, List.length_append, List.length_singleton] at ih ⊢
          omega

theorem length_ofSteps_le (rooted : Bool) (ss : List Bytes) :
    (ofSteps rooted ss).length ≤ span ss + 1 := by
  have joined := length_join_le ss
  rw [ofSteps]
  split
  · rw [List.length_cons]
    omega
  · split
    · exact Nat.le_add_left 1 _
    · omega

/-- Cleaning makes a path hardly longer. -/
theorem length_clean_le (p : Bytes) : (clean p).length ≤ p.length + 2 := by
  have text := length_ofSteps_le (isAbsolute p) (shortest (isAbsolute p) (steps p))
  have fewer := span_shortest_le (isAbsolute p) (steps p)
  have all := span_steps_le p
  rw [clean]
  omega

theorem mem_join {b : UInt8} {ss : List Bytes} (member : b ∈ Bytes.join [slash] ss) :
    b = slash ∨ ∃ s ∈ ss, b ∈ s := by
  induction ss with
  | nil => cases member
  | cons s ss ih =>
      cases ss with
      | nil =>
          rw [Bytes.join_singleton] at member
          exact .inr ⟨s, List.mem_cons_self, member⟩
      | cons t ss =>
          rw [Bytes.join_cons_cons, List.mem_append, List.mem_append, List.mem_singleton] at member
          rcases member with (own | isSlash) | rest
          · exact .inr ⟨s, List.mem_cons_self, own⟩
          · exact .inl isSlash
          · refine (ih rest).imp_right ?_
            rintro ⟨u, inside, own⟩
            exact ⟨u, List.mem_cons_of_mem s inside, own⟩

theorem mem_shortest (rooted : Bool) {ss : List Bytes} {s : Bytes} (member : s ∈ shortest rooted ss) :
    s = parent ∨ s ∈ ss := by
  rcases mem_foldl_walk rooted ss (List.mem_reverse.mp member) with up | none | own
  · exact .inl up
  · cases none
  · exact .inr own

/-- Cleaning puts nothing into a path but slashes and dots. -/
theorem mem_clean {b : UInt8} {p : Bytes} (member : b ∈ clean p) : b = slash ∨ b = 46 ∨ b ∈ p := by
  have joined : b ∈ Bytes.join [slash] (shortest (isAbsolute p) (steps p)) →
      b = slash ∨ b = 46 ∨ b ∈ p := by
    intro inside
    rcases mem_join inside with isSlash | ⟨s, isStep, own⟩
    · exact .inl isSlash
    · rcases mem_shortest _ isStep with up | isStep
      · rw [up] at own
        exact .inr (.inl (by simpa [parent] using own))
      · exact .inr (.inr (subset_of_mem_splitOn (List.mem_filter.mp isStep).1 own))
  rw [clean, ofSteps] at member
  split at member
  · rcases List.mem_cons.mp member with isSlash | inside
    · exact .inl isSlash
    · exact joined inside
  · split at member
    · exact .inr (.inl (List.mem_singleton.mp member))
    · exact joined member

theorem splitLast_append (p : Bytes) : (splitLast p).1 ++ (splitLast p).2 = p := by
  rw [splitLast, List.span_eq_takeWhile_dropWhile]
  dsimp only
  rw [← List.reverse_append, List.takeWhile_append_dropWhile, List.reverse_reverse]

/-- The folder of a path is hardly longer than the path. -/
theorem length_dir_le (p : Bytes) : (dir p).length ≤ p.length + 2 := by
  have cleaned := length_clean_le (splitLast p).1
  have parts := congrArg List.length (splitLast_append p)
  rw [List.length_append] at parts
  rw [dir]
  omega

theorem zero_not_mem_dir {p : Bytes} (noZero : 0 ∉ p) : 0 ∉ dir p := by
  intro member
  rcases mem_clean member with isSlash | isDot | own
  · exact absurd isSlash (by decide)
  · exact absurd isDot (by decide)
  · rw [← splitLast_append p] at noZero
    exact noZero (List.mem_append_left _ own)

end Path

namespace FileTree

/-- In a folder that is there, what is absent is found to be no entry. -/
theorem find_absent {t : FileTree} (wf : t.WellFormed) {l : Location} {s : Bytes}
    (folder : t.get? l = some .folder) (short : Short (l ++ [s])) (absent : t.get? (l ++ [s]) = none) :
    t.find (l ++ [s]) = .error .noEntry := by
  have walk : ∀ (rest done : Location), done ++ rest = l → t.follow done (rest ++ [s]) = .error .noEntry := by
    intro rest
    induction rest with
    | nil =>
        intro done whole
        rw [List.append_nil] at whole
        subst whole
        have fits : ¬maxName < s.length := Nat.not_lt.mpr (short s (by simp))
        rw [List.nil_append, follow, folder]
        simp only [if_neg fits, follow, absent]
        rfl
    | cons next rest ih =>
        intro done whole
        have here : t.get? done = some .folder :=
          wf.get?_append done (next :: rest) (by simp) (by simp [whole, folder])
        have fits : ¬maxName < next.length := Nat.not_lt.mpr (short next (by simp [← whole]))
        rw [List.cons_append, follow, here]
        simp only [if_neg fits]
        exact ih (done ++ [next]) (by simpa using whole)
  exact walk l [] rfl

end FileTree

namespace Host

variable {h g : Host}

/-! ## Folders -/

theorem pathFlaw_eq_none {p : Bytes} : pathFlaw p = none ↔ p ≠ [] ∧ 0 ∉ p ∧ p.length ≤ maxPath := by
  rw [pathFlaw]
  split
  · simp_all
  · split
    · simp_all
    · split
      · simp_all
      · simp_all

/-- Something can be put into a folder that is there. -/
theorem admits_of_folder {p : Bytes} (sound : h.Sound) (flaw : pathFlaw p = none)
    (parent : h.tree.get? (h.locate p).dropLast = some .folder) (short : Short (h.locate p)) :
    h.admits p = .ok () := by
  have found : h.tree.find (h.locate p).dropLast = .ok .folder :=
    (find_eq_ok_iff sound.tree).mpr ⟨parent, fun s member => short s ((List.dropLast_prefix _).subset member)⟩
  have fits : ¬maxName < ((h.locate p).getLast?.getD []).length := by
    cases last : (h.locate p).getLast? with
    | none => exact Nat.not_lt_zero _
    | some s => exact Nat.not_lt.mpr (short s (List.mem_of_getLast? last))
  simp only [admits, flaw, FileTree.admits, found, if_neg fits]

/-- Making a folder succeeds where one is, and where nothing is in a folder. -/
theorem makeFolder_makes {p : Bytes} (sound : h.Sound) (flaw : pathFlaw p = none)
    (short : Short (h.locate p)) (parent : h.tree.get? (h.locate p).dropLast = some .folder)
    (free : h.tree.get? (h.locate p) = none ∨ h.tree.get? (h.locate p) = some .folder) :
    ∃ g, (makeFolder p).on h = (.ok (), g) ∧ g.Sound ∧ g.folder = h.folder ∧
      g.tree.get? (h.locate p) = some .folder ∧
      ∀ k, g.tree.get? k = h.tree.get? k ∨ g.tree.get? k = some .folder := by
  rcases free with absent | there
  · have notFound : ∀ n, h.look p ≠ .ok n := by
      intro n found
      rw [((look_eq_ok_iff sound).mp found).2.1] at absent
      cases absent
    have leaf : h.tree.get? (h.locate p) ≠ some .folder := by simp [absent]
    refine ⟨{ h with tree := h.tree.set (h.locate p) .folder }, ?_, sound_of_set sound parent leaf, rfl, ?_,
      fun k => ?_⟩
    · rw [makeFolder, on_bind, on_get]
      cases found : h.look p with
      | ok n => exact absurd found (notFound n)
      | error e =>
          simp only [found, admits_of_folder sound flaw parent short]
          rfl
    · exact (get?_set _ _ _ _ (ne_nil_of_not_folder leaf)).trans (if_pos rfl)
    · by_cases here : k = h.locate p
      · exact .inr ((get?_set _ _ _ _ (ne_nil_of_not_folder leaf)).trans (if_pos here))
      · exact .inl ((get?_set _ _ _ _ (ne_nil_of_not_folder leaf)).trans (if_neg here))
  · refine ⟨h, ?_, sound, rfl, there, fun k => .inl rfl⟩
    have found : h.look p = .ok .folder := (look_eq_ok_iff sound).mpr ⟨flaw, there, short⟩
    rw [makeFolder, on_bind, on_get]
    simp only [found]
    rfl

/-- The location of one step more. -/
theorem locate_ofSteps (h : Host) (rooted : Bool) {ss : List Bytes} {s : Bytes}
    (each : ∀ t ∈ ss ++ [s], IsStep t) :
    h.locate (ofSteps rooted (ss ++ [s])) =
      if s = parent then (h.locate (ofSteps rooted ss)).dropLast
      else h.locate (ofSteps rooted ss) ++ [s] := by
  have before : ∀ t ∈ ss, IsStep t := fun t member => each t (List.mem_append_left [s] member)
  have origin : h.origin (ofSteps rooted (ss ++ [s])) = h.origin (ofSteps rooted ss) :=
    h.origin_congr (by rw [isAbsolute_ofSteps rooted each, isAbsolute_ofSteps rooted before])
  rw [locate_eq, locate_eq, origin, steps_ofSteps rooted each, steps_ofSteps rooted before,
    ← List.append_assoc]
  split
  · rename_i up
    rw [up, shortest_append_parent]
  · rename_i down
    rw [shortest_append_name true _ down]

/-- The path without steps leads to the root or to the working folder. -/
theorem get?_ofSteps_nil (sound : h.Sound) (rooted : Bool) :
    h.tree.get? (h.locate (ofSteps rooted [])) = some .folder := by
  cases rooted with
  | true => rfl
  | false =>
      have home : h.locate (ofSteps false []) = h.locate [] := h.locate_congr rfl rfl
      rw [home]
      exact sound.home

/-- Nothing is wrong with the paths on the way to a path with which nothing is wrong. -/
theorem pathFlaw_of_mem_ancestors {p a : Bytes} (flaw : pathFlaw p = none) (member : a ∈ ancestors p) :
    pathFlaw a = none := by
  rcases eq_take_of_mem_ancestors member with rfl | ⟨rest, whole, nonempty⟩
  · exact flaw
  · rw [pathFlaw_eq_none] at flaw ⊢
    obtain ⟨-, noZero, fits⟩ := flaw
    rw [whole] at noZero fits
    rw [List.length_append] at fits
    exact ⟨nonempty, fun zero => noZero (List.mem_append_left _ zero), by omega⟩

/-- Folders are made along a path whose every part is a folder or free. -/
theorem makeFolders_ofSteps (rooted : Bool) (ss : List Bytes) (each : ∀ s ∈ ss, IsStep s)
    (sound : h.Sound) (clear : ∀ a ∈ ancestors (ofSteps rooted ss), pathFlaw a = none ∧ Short (h.locate a) ∧
      (h.tree.get? (h.locate a) = none ∨ h.tree.get? (h.locate a) = some .folder)) :
    ∃ g, (makeFolders (ofSteps rooted ss)).on h = (.ok (), g) ∧ g.Sound ∧ g.folder = h.folder ∧
      g.tree.get? (h.locate (ofSteps rooted ss)) = some .folder ∧
      ∀ k, g.tree.get? k = h.tree.get? k ∨ g.tree.get? k = some .folder := by
  induction ss using List.reverseRecOn with
  | nil =>
      have only : ancestors (ofSteps rooted []) = [ofSteps rooted []] := by cases rooted <;> rfl
      rw [only] at clear
      obtain ⟨flaw, short, -⟩ := clear _ List.mem_cons_self
      have found := (look_eq_ok_iff sound).mpr ⟨flaw, get?_ofSteps_nil sound rooted, short⟩
      refine ⟨h, ?_, sound, rfl, get?_ofSteps_nil sound rooted, fun k => .inl rfl⟩
      rw [makeFolders, only]
      change (makeFolder (ofSteps rooted []) >>= fun _ => pure ()).on h = _
      rw [on_bind, makeFolder, on_bind, on_get]
      simp only [found]
      rfl
  | append_singleton ss s ih =>
      have before : ∀ t ∈ ss, IsStep t := fun t member => each t (List.mem_append_left [s] member)
      have step : IsStep s := each s (by simp)
      rw [ancestors_ofSteps rooted before step] at clear
      obtain ⟨flaw, short, free⟩ := clear _ (List.mem_append_right _ List.mem_cons_self)
      have start : ∃ g, ((if ss = [] then [] else ancestors (ofSteps rooted ss)).forM makeFolder).on h =
          (.ok (), g) ∧ g.Sound ∧ g.folder = h.folder ∧
            g.tree.get? (h.locate (ofSteps rooted ss)) = some .folder ∧
            ∀ k, g.tree.get? k = h.tree.get? k ∨ g.tree.get? k = some .folder := by
        by_cases first : ss = []
        · rw [if_pos first, first]
          exact ⟨h, rfl, sound, rfl, get?_ofSteps_nil sound rooted, fun k => .inl rfl⟩
        · rw [if_neg first] at clear ⊢
          exact ih before fun a member => clear a (List.mem_append_left _ member)
      obtain ⟨g, made, sound', folder, there, either⟩ := start
      have place : g.locate (ofSteps rooted (ss ++ [s])) = h.locate (ofSteps rooted (ss ++ [s])) :=
        locate_of_folder folder _
      have parent : g.tree.get? (g.locate (ofSteps rooted (ss ++ [s]))).dropLast = some .folder := by
        rw [place, h.locate_ofSteps rooted each]
        split
        · exact sound'.tree.get?_prefix
            ((List.dropLast_prefix _).trans (List.dropLast_prefix _)) there
        · rw [List.dropLast_concat]
          exact there
      have free' : g.tree.get? (g.locate (ofSteps rooted (ss ++ [s]))) = none ∨
          g.tree.get? (g.locate (ofSteps rooted (ss ++ [s]))) = some .folder := by
        rw [place]
        rcases either (h.locate (ofSteps rooted (ss ++ [s]))) with same | made
        · rw [same]
          exact free
        · exact .inr made
      obtain ⟨k, makes, sound'', folder', there', either'⟩ :=
        makeFolder_makes sound' flaw (place ▸ short) parent free'
      refine ⟨k, ?_, sound'', folder'.trans folder, place ▸ there', fun j => ?_⟩
      · rw [List.forM_eq_forM] at made
        rw [makeFolders, ancestors_ofSteps rooted before step, List.forM_eq_forM, List.forM_append, on_bind,
          made]
        simp only [List.forM_cons, on_bind, makes]
        rfl
      · rcases either' j with same | isFolder
        · rw [same]
          exact either j
        · exact .inr isFolder

/-- Folders are made on the way to a place that nothing but folders is on the way to. -/
theorem makeFolders_makes {p : Bytes} (sound : h.Sound) (flaw : pathFlaw (clean p) = none)
    (home : Short (h.locate [])) (short : Short (h.locate p))
    (way : ∀ k, k <+: h.locate p → h.tree.get? k = none ∨ h.tree.get? k = some .folder) :
    ∃ g, (makeFolders (clean p)).on h = (.ok (), g) ∧ g.tree.get? (h.locate p) = some .folder := by
  have each : ∀ s ∈ shortest (isAbsolute p) (steps p), IsStep s :=
    isStep_of_mem_shortest _ fun _ member => isStep_of_mem_steps member
  obtain ⟨g, made, -, -, there, -⟩ := makeFolders_ofSteps (isAbsolute p) _ each sound fun a member => by
    refine ⟨pathFlaw_of_mem_ancestors flaw member, ?_⟩
    rcases h.locate_ancestors member with onTheWay | atHome
    · rw [locate_clean] at onTheWay
      exact ⟨fun s inside => short s (onTheWay.subset inside), way _ onTheWay⟩
    · exact ⟨fun s inside => home s (atHome.subset inside),
        .inr (sound.tree.get?_prefix atHome sound.home)⟩
  refine ⟨g, made, ?_⟩
  have place : h.locate (ofSteps (isAbsolute p) (shortest (isAbsolute p) (steps p))) = h.locate p :=
    h.locate_clean p
  rwa [place] at there

/-- A file with enough room grows. -/
theorem on_append {p content data : Bytes} {executable : Bool}
    (there : h.look p = .ok (.file content executable)) (room : ∀ rest, h.room = some rest → data.length ≤ rest) :
    (append p data).on h = (.ok (), { h with
      room := h.room.map (· - data.length),
      tree := h.tree.set (h.locate p) (.file (content ++ data) executable) }) := by
  have taken : (takeRoom p data.length).on h =
      (.ok (), { h with room := h.room.map (· - data.length) }) := by
    rw [takeRoom, on_bind, on_get]
    cases free : h.room with
    | none =>
        obtain ⟨⟩ := h
        cases free
        rfl
    | some rest =>
        have enough : ¬rest < data.length := Nat.not_lt.mpr (room rest free)
        simp only [free, if_neg enough]
        rfl
  have found : look { h with room := h.room.map (· - data.length) } p = .ok (.file content executable) := there
  rw [append, on_bind, taken]
  simp only [on_bind, on_get, found]
  rfl

/-! ## Temporary files -/

/-- A number that is free is the next one. -/
theorem freshNumber_eq {t : FileTree} {inside : Location} {stem : Bytes} {start : Nat}
    (free : t.get? (inside ++ [stem ++ Decimal.ofNat start]) = none) :
    freshNumber t inside stem start = start := by
  rw [freshNumber, List.range_succ_eq_map, List.find?_cons_of_pos (by simp [free])]
  rfl

/-- A temporary file can be made in a folder where its name is free. -/
theorem createTemporary_makes {inside stem : Bytes} (sound : h.Sound) (nonempty : inside ≠ [])
    (noZero : 0 ∉ inside) (noSlash : slash ∉ stem) (stemZero : 0 ∉ stem) (long : 2 < stem.length)
    (brief : stem.length + 20 ≤ maxName) (within : inside.length + stem.length + 21 ≤ maxPath)
    (short : Short (h.locate inside)) (folder : h.tree.get? (h.locate inside) = some .folder)
    (free : h.tree.get? (h.locate inside ++ [stem ++ Decimal.ofNat h.temporary]) = none)
    (few : h.temporary < 10 ^ 20) :
    ∃ temp g, (createTemporary inside stem).on h = (.ok temp, g) ∧
      g.temporary = h.temporary + 1 := by
  let name := stem ++ Decimal.ofNat h.temporary
  let temp := (if Bytes.endsWith [slash] inside then inside else inside ++ [slash]) ++ name
  have digits : (Decimal.ofNat h.temporary).length ≤ 20 := (Decimal.length_ofNat_le _ 19).mpr few
  have length : name.length ≤ stem.length + 20 := by
    rw [show name = stem ++ Decimal.ofNat h.temporary from rfl, List.length_append]
    omega
  have place : h.locate temp = h.locate inside ++ [name] :=
    h.locate_inside nonempty (isName_temporary noSlash long _)
  have nameZero : 0 ∉ name := by
    intro member
    rcases List.mem_append.mp member with inStem | inDigits
    · exact stemZero inStem
    · exact absurd (Decimal.isDigit_of_mem_ofNat inDigits) (by decide)
  have flaw : pathFlaw temp = none := by
    refine pathFlaw_eq_none.mpr ⟨?_, ?_, ?_⟩
    · intro none
      have stemEmpty := (List.append_eq_nil_iff.mp (List.append_eq_nil_iff.mp none).2).1
      rw [stemEmpty] at long
      exact absurd long (by decide)
    · simp only [temp, List.mem_append, not_or]
      refine ⟨?_, nameZero⟩
      split
      · exact noZero
      · simp only [List.mem_append, not_or]
        exact ⟨noZero, by decide⟩
    · have front : (if Bytes.endsWith [slash] inside then inside else inside ++ [slash]).length ≤
          inside.length + 1 := by
        split
        · exact Nat.le_succ _
        · rw [List.length_append, List.length_singleton]
      simp only [temp, List.length_append]
      omega
  have steps : Short (h.locate temp) := by
    intro s member
    rw [place] at member
    rcases List.mem_append.mp member with front | last
    · exact short s front
    · rw [List.mem_singleton.mp last]
      exact Nat.le_trans length brief
  have parent : h.tree.get? (h.locate temp).dropLast = some .folder := by
    rw [place, List.dropLast_concat]
    exact folder
  have admitted := admits_of_folder sound flaw parent steps
  refine ⟨temp, { h with
    temporary := h.temporary + 1, tree := h.tree.set (h.locate temp) (.file [] false) }, ?_, rfl⟩
  rw [createTemporary, on_bind, on_get]
  simp only [freshNumber_eq free]
  rw [List.append_assoc]
  change ((set { h with temporary := h.temporary + 1 } : Run Unit) >>= fun _ =>
    system "open" temp (h.admits temp) >>= fun _ => Host.place temp (.file [] false) >>= fun _ =>
      pure temp).on h = _
  rw [admitted]
  rfl

end Host

namespace AtomicFile

/-- Nothing changed but files. -/
def OnlyFiles (h g : Host) : Prop := g = { h with tree := g.tree }

theorem onlyFiles_lasting : Lasting OnlyFiles where
  refl _ := rfl
  trans := by
    intro h g k first second
    rw [OnlyFiles] at first second ⊢
    rw [second, first]

theorem makeFolder_onlyFiles (p : Bytes) : (makeFolder p).Keeps OnlyFiles := by
  refine Keeps.get_bind fun h => ?_
  cases h.look p with
  | ok node => cases node <;> rfl
  | error e =>
      dsimp only
      cases h.admits p <;> rfl

theorem makeFolders_onlyFiles (p : Bytes) : (makeFolders p).Keeps OnlyFiles :=
  Keeps.forM onlyFiles_lasting makeFolder_onlyFiles _

/-- All that beginning a file changes are files and the number of the next temporary file. -/
def Begun (h g : Host) : Prop := g = { h with tree := g.tree, temporary := g.temporary }

theorem begun_lasting : Lasting Begun where
  refl _ := rfl
  trans := by
    intro h g k first second
    rw [Begun] at first second ⊢
    rw [second, first]

theorem OnlyFiles.begun {h g : Host} (same : OnlyFiles h g) : Begun h g := by
  rw [OnlyFiles] at same
  rw [Begun, same]

theorem createTemporary_begun (inside stem : Bytes) : (createTemporary inside stem).Keeps Begun := by
  refine Keeps.get_bind fun h => ?_
  dsimp only
  generalize (if Bytes.endsWith [slash] inside then inside else inside ++ [slash]) ++ stem ++
    Decimal.ofNat (freshNumber h.tree (h.locate inside) stem h.temporary) = p
  cases h.admits p <;> rfl

theorem create_begun (dest : Bytes) : (create dest).Keeps Begun := by
  have folders : (makeFolders (dir dest)).Keeps Begun :=
    (makeFolders_onlyFiles (dir dest)).mono OnlyFiles.begun
  refine (folders.during _).bind begun_lasting fun _ => ?_
  refine ((createTemporary_begun (dir dest) stem).during _).bind begun_lasting fun _ => ?_
  exact Keeps.pure begun_lasting _

/-- Work that does no less well than writing a text succeeds where the text can be written. -/
theorem on_writing {α : Type} {work : AtomicFile → Run α} {dest data : Bytes} {f : AtomicFile}
    {h g k : Host} {a : α} (created : (create dest).on h = (.ok f, g))
    (whole : (writeAll dest data).on h = (.ok (), k))
    (prepared : ∀ g', (f.write data).on g = (.ok (), g') → (work f).on g = (.ok a, g')) :
    (writing dest work).on h = (.ok a, k) := by
  rw [writeAll, writing, on_bind, created] at whole
  rw [writing, on_bind, created]
  simp only [on_bind, on_attempt, on_during] at whole ⊢
  cases written : (f.write data).on g with
  | mk outcome g' =>
      rw [written] at whole
      cases outcome with
      | error e =>
          obtain ⟨_, _, -, thrown⟩ := on_bind_ok whole
          cases thrown
      | ok _ =>
          obtain ⟨_, k', committed, ended⟩ := on_bind_ok whole
          cases ended
          rw [prepared g' written]
          change (f.commit >>= fun _ => pure a).on g' = _
          rw [on_bind, committed]
          rfl

/-- A text of some size can be written to `dest`. -/
structure Takes (h : Host) (dest : Bytes) (size : Nat) : Prop where
  nonempty : dest ≠ []
  noZero : 0 ∉ dest
  within : dest.length + 28 ≤ maxPath
  home : Short (h.locate [])
  short : Short (h.locate dest)
  inside : h.locate (dir dest) = (h.locate dest).dropLast
  way : ∀ k, k <+: h.locate (dir dest) → h.tree.get? k = none ∨ h.tree.get? k = some .folder
  leaf : h.tree.get? (h.locate dest) ≠ some .folder
  free : h.tree.get? (h.locate (dir dest) ++ [stem ++ Decimal.ofNat h.temporary]) = none
  few : h.temporary < 10 ^ 20
  room : ∀ rest, h.room = some rest → size ≤ rest

variable {h g : Host} {dest : Bytes} {size : Nat}

/-- A file can be begun where it can be written. -/
theorem create_makes (sound : h.Sound) (takes : Takes h dest size) :
    ∃ f g, (create dest).on h = (.ok f, g) ∧
      g = { h with tree := g.tree, temporary := h.temporary + 1 } := by
  have dirZero := zero_not_mem_dir takes.noZero
  have dirLength := length_dir_le dest
  have shortDir : Short (h.locate (dir dest)) := by
    rw [takes.inside]
    exact fun s member => takes.short s ((List.dropLast_prefix _).subset member)
  have within := takes.within
  have flaw : pathFlaw (dir dest) = none :=
    pathFlaw_eq_none.mpr ⟨dir_ne_nil dest, dirZero, by omega⟩
  have place : h.locate (splitLast dest).1 = h.locate (dir dest) := by rw [dir, locate_clean]
  obtain ⟨m, made, folder⟩ := makeFolders_makes sound flaw takes.home (place ▸ shortDir)
    (place ▸ takes.way)
  change (makeFolders (dir dest)).on h = (.ok (), m) at made
  have base : Changes (Grows (h.locate (dir dest))) h m := by
    have ended := (makeFolders_ends sound (splitLast dest).1).holds
    change Changes _ h ((makeFolders (dir dest)).on h).2 at ended
    rwa [made, place] at ended
  have only : OnlyFiles h m := (makeFolders_onlyFiles (dir dest)).after made
  have number : m.temporary = h.temporary := by rw [only]
  have same := locate_of_folder base.folder
  rw [place] at folder
  have free : m.tree.get? (m.locate (dir dest) ++ [stem ++ Decimal.ofNat m.temporary]) = none := by
    rw [same, number, base.tree.get?_off fun way => ?_]
    · exact takes.free
    · have longer := way.length_le
      rw [List.length_append, List.length_singleton] at longer
      omega
  have stemLength : stem.length = 5 := rfl
  obtain ⟨temp, g, created, next⟩ := createTemporary_makes base.sound (dir_ne_nil dest) dirZero
    (by decide) (by decide) (by decide) (by decide) (by omega) (same _ ▸ shortDir) (same _ ▸ folder)
    free (number ▸ takes.few)
  have begun : Begun m g := (createTemporary_begun (dir dest) stem).after created
  refine ⟨⟨temp, dest, false⟩, g, ?_, ?_⟩
  on_goal 2 =>
    rw [number] at next
    rw [Begun, next, only] at begun
    exact begun
  rw [create, on_bind, on_during, made]
  simp only [Except.mapError]
  rw [on_bind, on_during, created]
  rfl

/-- A draft can be moved to a destination that takes it. -/
theorem commit_makes {m : Host} {f : AtomicFile} {content : Bytes} (open_ : f.done = false)
    (takes : Takes h f.dest size) (draft : Draft h m g (h.locate (dir f.dest)) f.temp content) :
    ∃ k, f.commit.on g = (.ok (), k) ∧ OnlyFiles g k := by
  have within := takes.within
  have nonempty := ne_nil_of_not_folder takes.leaf
  have notTemp : h.locate (dir f.dest) ≠ h.locate f.temp := by
    obtain ⟨name, isIn⟩ := draft.isIn
    rw [isIn]
    simp
  have parent : g.tree.get? (g.locate f.dest).dropLast = some .folder := by
    rw [draft.locate, ← takes.inside, draft.tree, if_neg notTemp]
    exact draft.folder
  have notFolder : g.tree.get? (g.locate f.dest) ≠ some .folder := by
    rw [draft.locate, draft.tree]
    split
    · simp
    · rcases draft.base.tree (h.locate f.dest) with same | ⟨way, -, -⟩
      · rw [same]
        exact takes.leaf
      · -- the destination is one step below its folder
        have shorter := way.length_le
        have positive := List.length_pos_iff.mpr nonempty
        rw [takes.inside, List.length_dropLast] at shorter
        omega
  have notFound : g.look f.dest ≠ .ok .folder := fun found =>
    notFolder ((look_eq_ok_iff draft.sound).mp found).2.1
  have flaw : pathFlaw f.dest = none := pathFlaw_eq_none.mpr ⟨takes.nonempty, takes.noZero, by omega⟩
  have admitted := admits_of_folder draft.sound flaw parent (by rw [draft.locate]; exact takes.short)
  have renamed : (rename f.temp f.dest).on g = (.ok (), { g with
      tree := (g.tree.erase (g.locate f.temp)).set (g.locate f.dest) (.file content false) }) := by
    rw [rename, on_bind, on_get]
    simp only [draft.look, admitted]
    cases found : g.look f.dest with
    | error e => rfl
    | ok n =>
        cases n with
        | folder => exact absurd found notFound
        | file content executable => rfl
  refine ⟨{ g with tree := (g.tree.erase (g.locate f.temp)).set (g.locate f.dest) (.file content false) },
    ?_, rfl⟩
  simp only [commit, finish, open_, AtomicFile.place, on_bind, on_attempt, renamed]
  rfl

/-- What `dest` takes can be written to it.  It uses up one number, and room for the text. -/
theorem writeAll_makes {data : Bytes} (sound : h.Sound) (takes : Takes h dest data.length) :
    ∃ k, (writeAll dest data).on h = (.ok (), k) ∧
      k = { h with
        tree := k.tree, temporary := h.temporary + 1, room := h.room.map (· - data.length) } := by
  obtain ⟨f, g, created, begun⟩ := create_makes sound takes
  obtain ⟨rfl, open_, m, draft⟩ := (create_yields sound dest).of_ok created
  have room : g.room = h.room := by rw [begun]
  have roomy : ∀ rest, g.room = some rest → data.length ≤ rest := by
    rw [room]
    exact takes.room
  have written := on_append draft.look roomy
  have draft' := draft.appended data (g.room.map (· - data.length))
  rw [← draft.locate] at draft'
  obtain ⟨k, committed, same⟩ := commit_makes open_ takes draft'
  refine ⟨k, ?_, ?_⟩
  · rw [writeAll, writing, on_bind, created]
    simp only [on_bind, on_attempt, on_during, AtomicFile.write, written]
    change (f.commit >>= fun _ => pure ()).on _ = _
    rw [on_bind, committed]
    rfl
  · rw [OnlyFiles, begun] at same
    exact same

end AtomicFile

end SymbolHistory
