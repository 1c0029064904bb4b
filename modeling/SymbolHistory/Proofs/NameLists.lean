/-
# Proofs.NameLists -- a list of names that was just made is right

The list of a project's names is `Current` when it has exactly the names in the
symbol files that are there, each on a line of its own.  Making the list gathers
the names of all symbol files (`names_yields`) and puts them into one file; if
that succeeds the list is current (`build_yields`).
-/
import SymbolHistory.NameList
import SymbolHistory.Proofs.MissingDiffs
import SymbolHistory.Proofs.NaturalOrder
import SymbolHistory.Proofs.TableReading

set_option autoImplicit false

namespace SymbolHistory

open SymbolHistory.Path FileTree Run Host

/-! ## Names, each once -/

namespace Bytes

theorem order_ne_gt_trans {s t u : Bytes} (first : order s t ≠ .gt) (second : order t u ≠ .gt) :
    order s u ≠ .gt := by
  cases st : order s t with
  | gt => exact absurd st first
  | eq => exact eq_of_order_eq st ▸ second
  | lt =>
      cases tu : order t u with
      | gt => exact absurd tu second
      | eq =>
          rw [← eq_of_order_eq tu, st]
          decide
      | lt =>
          rw [order_trans st tu]
          decide

theorem order_ne_gt_total (s t : Bytes) : order s t ≠ .gt ∨ order t s ≠ .gt := by
  rw [order_swap s t]
  cases order s t <;> decide

theorem pairwise_sort (xs : List Bytes) : (sort xs).Pairwise fun a b => order a b ≠ .gt := by
  have sorted : (sort xs).Pairwise fun a b => (order a b != .gt) = true := by
    refine List.pairwise_mergeSort (fun a b c first second => ?_) (fun a b => ?_) xs
    · rw [bne_iff_ne] at first second ⊢
      exact order_ne_gt_trans first second
    · rw [Bool.or_eq_true, bne_iff_ne, bne_iff_ne]
      exact order_ne_gt_total a b
  exact sorted.imp fun below => by simpa using below

theorem mem_sort {x : Bytes} {xs : List Bytes} : x ∈ sort xs ↔ x ∈ xs :=
  (List.mergeSort_perm _ _).mem_iff

/-- What a sequence is sorted into does not depend on its order. -/
theorem sort_congr {xs ys : List Bytes} (perm : xs.Perm ys) : sort xs = sort ys := by
  refine (((List.mergeSort_perm _ _).trans perm).trans (List.mergeSort_perm _ _).symm).eq_of_pairwise
    (fun a b _ _ below above => ?_) (pairwise_sort xs) (pairwise_sort ys)
  rw [order_swap a b] at above
  cases both : order a b with
  | eq => exact eq_of_order_eq both
  | lt =>
      rw [both] at above
      exact absurd rfl above
  | gt => exact absurd both below

end Bytes

namespace NameList

theorem mem_distinct {name : Bytes} (xs : List Bytes) : name ∈ distinct xs ↔ name ∈ xs := by
  fun_induction distinct xs with
  | case1 => rfl
  | case2 x => rfl
  | case3 x y rest same ih =>
      obtain rfl : x = y := by simpa using same
      rw [ih]
      simp
  | case4 x y rest _ ih => rw [List.mem_cons, ih, List.mem_cons (b := x)]

theorem distinct_nodup {xs : List Bytes}
    (sorted : xs.Pairwise fun a b => Bytes.order a b ≠ .gt) : (distinct xs).Nodup := by
  fun_induction distinct xs with
  | case1 => exact List.nodup_nil
  | case2 x => exact List.nodup_cons.mpr ⟨List.not_mem_nil, List.nodup_nil⟩
  | case3 x y rest _ ih => exact ih sorted.of_cons
  | case4 x y rest different ih =>
      refine List.nodup_cons.mpr ⟨fun member => ?_, ih sorted.of_cons⟩
      rw [mem_distinct] at member
      -- a copy of `x` further on would have `y` between the two
      obtain ⟨first, rest⟩ := List.pairwise_cons.mp sorted
      obtain ⟨second, -⟩ := List.pairwise_cons.mp rest
      have above := first y List.mem_cons_self
      rcases List.mem_cons.mp member with rfl | later
      · exact different (beq_self_eq_true x)
      · have below := second x later
        rw [Bytes.order_swap x y] at below
        cases way : Bytes.order x y with
        | lt => exact below (by rw [way]; rfl)
        | eq => exact different (beq_iff_eq.mpr (Bytes.eq_of_order_eq way))
        | gt => exact above way

theorem mem_arrange {name : Bytes} (names : List Bytes) : name ∈ arrange names ↔ name ∈ names := by
  rw [arrange, (List.mergeSort_perm _ _).mem_iff, mem_distinct, Bytes.mem_sort]

theorem arrange_nodup (names : List Bytes) : (arrange names).Nodup :=
  (List.mergeSort_perm _ _).nodup_iff.mpr (distinct_nodup (Bytes.pairwise_sort names))

/-! ## One name per line -/

theorem splitOn_text {names : List Bytes} (oneLine : ∀ name ∈ names, 10 ∉ name) :
    Bytes.splitOn 10 (text names) = names ++ [[]] := by
  induction names with
  | nil => rfl
  | cons name names ih =>
      rw [text, List.flatMap_cons, ← text, List.append_assoc, List.singleton_append,
        Bytes.splitOn_append_sep, Bytes.splitOn_of_not_mem (oneLine name List.mem_cons_self),
        ih fun name member => oneLine name (List.mem_cons_of_mem _ member)]
      rfl

/-- A list of names can be told from its file. -/
theorem eq_of_text_eq {names names' : List Bytes} (oneLine : ∀ name ∈ names, 10 ∉ name)
    (oneLine' : ∀ name ∈ names', 10 ∉ name) (same : text names = text names') : names = names' := by
  have pieces := splitOn_text oneLine
  rw [same, splitOn_text oneLine'] at pieces
  exact (List.append_cancel_right pieces).symm

end NameList

/-! ## Names in symbol files -/

namespace Symbol

theorem name_prefix_of_parse {line : Bytes} {s : Symbol} (parsed : parse line = .ok s) :
    s.name <+: line := by
  rw [parse] at parsed
  split at parsed
  · rename_i name kind number rest split
    cases read : Fault.ofNumber .small number (Decimal.signed number) with
    | error f =>
        rw [read] at parsed
        cases parsed
    | ok n =>
        rw [read] at parsed
        cases parsed
        exact Bytes.prefix_of_splitAtMost split
  · cases parsed

theorem mem_readLines {s : Symbol} (lines : List Bytes) :
    ∀ done, s ∈ (readLines done lines).items → s ∈ done ∨ ∃ line ∈ lines, parse line = .ok s := by
  induction lines with
  | nil => exact fun done member => .inl (by simpa [readLines] using member)
  | cons line rest ih =>
      intro done member
      rw [readLines] at member
      split at member
      · rcases ih done member with before | ⟨other, inside, parsed⟩
        · exact .inl before
        · exact .inr ⟨other, List.mem_cons_of_mem _ inside, parsed⟩
      · split at member
        · rename_i s' parsed
          rcases ih _ member with before | ⟨other, inside, parsed⟩
          · rcases List.mem_cons.mp before with rfl | earlier
            · exact .inr ⟨line, List.mem_cons_self, parsed⟩
            · exact .inl earlier
          · exact .inr ⟨other, List.mem_cons_of_mem _ inside, parsed⟩
        · exact .inl (by simpa using member)

/-- A name stands on one line. -/
theorem newline_not_mem_name {data : Bytes} {s : Symbol}
    (member : s ∈ (readAll ⟨data, none⟩).items) : 10 ∉ s.name := by
  have read : s ∈ (readLines [] ((Bytes.lines data).map Bytes.Line.text)).items := by
    rw [readAll] at member
    split at member
    · rename_i noFailure
      cases noFailure
    · exact member
  rcases mem_readLines _ [] read with impossible | ⟨line, inside, parsed⟩
  · cases impossible
  · obtain ⟨l, isLine, rfl⟩ := List.mem_map.mp inside
    exact fun bad => Bytes.not_mem_of_mem_lines isLine ((name_prefix_of_parse parsed).subset bad)

end Symbol

namespace Layout

/-- A name stands in the symbol file of some content. -/
def Occurs (l : Layout) (h : Host) (name : Bytes) : Prop := ∃ id, ∃ s ∈ l.symbolsAt h id, s.name = name

/-- The list of names has exactly the names in the symbol files, each on a line of its own. -/
def Current (l : Layout) (h : Host) : Prop :=
  ∃ names, h.contentAt? l.names = some (NameList.text names) ∧ names.Nodup ∧
    ∀ name, name ∈ names ↔ l.Occurs h name

variable {l : Layout} {h g : Host}

theorem Occurs.oneLine {name : Bytes} (occurs : l.Occurs h name) : 10 ∉ name := by
  obtain ⟨id, s, member, rfl⟩ := occurs
  rw [symbolsAt] at member
  split at member
  · cases there : h.contentAt? (l.tagStore.path id) with
    | none =>
        rw [there] at member
        cases member
    | some data =>
        rw [there] at member
        exact Symbol.newline_not_mem_name member
  · cases member

theorem occurs_congr (same : ∀ id, l.symbolsAt g id = l.symbolsAt h id) (name : Bytes) :
    l.Occurs g name ↔ l.Occurs h name := by
  simp only [Occurs, same]

/-- A current list stays current for as long as it and the symbol files stay. -/
theorem Current.congr (current : l.Current h) (list : g.contentAt? l.names = h.contentAt? l.names)
    (symbols : ∀ id, l.symbolsAt g id = l.symbolsAt h id) : l.Current g := by
  obtain ⟨names, there, once, exactly⟩ := current
  exact ⟨names, list.trans there, once, fun name =>
    (exactly name).trans (occurs_congr symbols name).symm⟩

theorem Current.quiet (current : l.Current h) (same : Quiet h g) : l.Current g := by
  refine current.congr ?_ fun id => l.symbolsAt_congr fun _ => ?_
  · rw [contentAt?, look_of_sameFiles same.toSameFiles, contentAt?]
  · rw [contentAt?, look_of_sameFiles same.toSameFiles, contentAt?]

/-- A list that was current on `h` is current on `g` exactly when the same names occur. -/
theorem Current.iff_of_list (current : l.Current h)
    (list : g.contentAt? l.names = h.contentAt? l.names) :
    l.Current g ↔ ∀ name, l.Occurs g name ↔ l.Occurs h name := by
  obtain ⟨names, there, once, exactly⟩ := current
  constructor
  · rintro ⟨names', there', -, exactly'⟩ name
    have texts : NameList.text names' = NameList.text names := by
      rw [list, there] at there'
      exact (Option.some.inj there').symm
    have same := NameList.eq_of_text_eq (fun n member => ((exactly' n).mp member).oneLine)
      (fun n member => ((exactly n).mp member).oneLine) texts
    rw [← exactly', same, exactly]
  · exact fun same => ⟨names, list.trans there, once, fun name => (exactly name).trans (same name).symm⟩

end Layout

/-! ## Gathering names -/

namespace Host

/-- What has a name in a folder is among the folder's names. -/
theorem mem_children {t : FileTree} {d : Location} {name : Bytes} {n : Node}
    (there : t.get? (d ++ [name]) = some n) : (name, n) ∈ t.children d := by
  rw [FileTree.get?, if_neg (by simp)] at there
  obtain ⟨p, found, rfl⟩ := Option.map_eq_some_iff.mp there
  obtain ⟨place, node⟩ := p
  obtain rfl : place = d ++ [name] := by simpa using List.find?_some found
  rw [FileTree.children, (List.mergeSort_perm _ _).mem_iff]
  refine List.mem_filterMap.mpr ⟨_, List.mem_of_find?_eq_some found, ?_⟩
  rw [List.dropLast_concat, if_pos (beq_self_eq_true d), List.getLast?_concat]
  rfl

/-- A folder is missing only where no folder is. -/
theorem readFolder_ends {h : Host} (sound : h.Sound) {p : Bytes} (nonempty : p ≠ []) :
    (readFolder p).Ends h fun r g => g = h ∧
      (∀ entries, r = .ok entries →
        entries = (h.tree.children (h.locate p)).map fun c => (c.1, c.2.isFolder)) ∧
      ∀ f, r = .error f → f.isMissingFile = true →
        ¬(h.tree.get? (h.locate p) = some .folder ∧ Short (h.locate p)) := by
  rw [readFolder, ends_get_bind]
  cases found : h.look p with
  | ok n =>
      cases n with
      | folder => exact ⟨rfl, fun _ same => (Except.ok.inj same).symm, nofun⟩
      | file content executable =>
          refine ⟨rfl, nofun, fun f failed missing => ?_⟩
          cases failed
          cases missing
  | error e =>
      refine ⟨rfl, nofun, fun f failed missing => ?_⟩
      rintro ⟨there, short⟩
      cases failed
      cases flaw : pathFlaw p with
      | none =>
          rw [(look_eq_ok_iff sound).mpr ⟨flaw, there, short⟩] at found
          cases found
      | some e' =>
          have isFlaw : e = e' := by
            rw [look, flaw] at found
            exact (Except.error.inj found).symm
          subst isFlaw
          rw [pathFlaw, if_neg (by simpa using nonempty)] at flaw
          split at flaw
          · cases flaw
            cases missing
          · split at flaw
            · cases flaw
              cases missing
            · cases flaw

end Host

namespace ObjectStore

/-- Every id that has a file is listed. -/
theorem list_yields {h : Host} (sound : h.Sound) {s : ObjectStore} (nonempty : s.folder ≠ []) :
    s.list.Yields h
      (fun ids g => g = h ∧ ∀ id data, ObjectId.isValid id = true →
        h.contentAt? (s.path id) = some data → id ∈ ids)
      (· = h) := by
  have below : ∀ {id data}, ObjectId.isValid id = true → h.contentAt? (s.path id) = some data →
      ∃ x, h.tree.get? (h.locate s.folder ++ [id]) = some (.file data x) ∧
        Short (h.locate s.folder) := by
    intro id data valid there
    obtain ⟨x, found⟩ := exists_look_of_contentAt? there
    obtain ⟨-, at_, short⟩ := (look_eq_ok_iff sound).mp found
    rw [path, h.locate_join s.folder (ObjectId.isName_of_isValid valid)] at at_ short
    exact ⟨x, at_, fun step member => short step (by simp [member])⟩
  rw [list]
  refine (yields_attempt (readFolder_ends sound nonempty)).bind ?_
  rintro outcome _ ⟨rfl, success, failure⟩
  cases outcome with
  | ok entries =>
      refine ⟨rfl, fun id data valid there => ?_⟩
      obtain ⟨x, at_, -⟩ := below valid there
      rw [Bytes.mem_sort, success entries rfl]
      refine List.mem_filter.mpr ⟨List.mem_map.mpr ⟨(id, false), List.mem_filter.mpr ⟨?_, rfl⟩, rfl⟩, valid⟩
      exact List.mem_map.mpr ⟨_, mem_children at_, rfl⟩
  | error f =>
      dsimp only
      split
      · rename_i missing
        refine ⟨rfl, fun id data valid there => ?_⟩
        obtain ⟨x, at_, short⟩ := below valid there
        exact absurd ⟨sound.tree _ id (by simp [at_]), short⟩ (failure f rfl missing)
      · exact ⟨rfl⟩

end ObjectStore

namespace NameList

variable {l : Layout} {h g : Host}

theorem symbolsAt_of_sameFiles (l : Layout) (same : SameFiles h g) (id : Bytes) :
    l.symbolsAt g id = l.symbolsAt h id := by
  refine l.symbolsAt_congr fun _ => ?_
  rw [contentAt?, look_of_sameFiles same, contentAt?]

theorem ofTagFile_yields (l : Layout) (h : Host) (id : Bytes) :
    (ofTagFile l.tagStore id).Yields h
      (fun names g => g = h ∧ names = (l.symbolsAt h id).map (·.name)) (· = h) := by
  rw [ofTagFile]
  have read : (l.tagStore.read id).Yields h
      (fun data g => g = h ∧ ObjectId.isValid id = true ∧
        h.contentAt? (l.tagStore.path id) = some data) (· = h) :=
    (l.tagStore.read_ends id h).yields (fun data g ended => ⟨ended.1, ended.2.1 data rfl⟩)
      fun g ended => ended.1
  refine read.bind ?_
  rintro data _ ⟨rfl, valid, there⟩
  dsimp only
  split
  · exact ⟨rfl⟩
  · rw [yields_pure, l.symbolsAt_of_contentAt? valid there]
    exact ⟨rfl, rfl⟩

/-- What is gathered are the names in the symbol files, after those found before. -/
theorem gather_yields (l : Layout) (h : Host) (ids : List Bytes) :
    ∀ {g : Host} (found : List Bytes), Quiet h g →
      (gather l.tagStore found ids).Yields g
        (fun names k => Quiet h k ∧ ∀ name, name ∈ names ↔
          name ∈ found ∨ ∃ id ∈ ids, ∃ s ∈ l.symbolsAt h id, s.name = name)
        (Quiet h) := by
  induction ids with
  | nil => exact fun found same => ⟨same, by simp⟩
  | cons id rest ih =>
      intro g found same
      rw [gather]
      refine ((checkpoint_quiet.yields g).mono (fun _ _ same' => quiet_lasting.trans same same')
        fun _ same' => quiet_lasting.trans same same').bind fun _ g same => ?_
      refine ((ofTagFile_yields l g id).mono (fun _ _ ended => ended) ?_).bind ?_
      · rintro _ rfl
        exact same
      · rintro names k ⟨rfl, isNames⟩
        rw [symbolsAt_of_sameFiles l same.toSameFiles] at isNames
        refine (ih _ same).mono ?_ fun _ ended => ended
        rintro all m ⟨same, exactly⟩
        refine ⟨same, fun name => ?_⟩
        rw [exactly, isNames]
        simp only [List.mem_append, List.mem_reverse, List.mem_map, List.mem_cons,
          exists_eq_or_imp]
        rw [or_assoc, or_left_comm]

/-- The names of a project are those in its symbol files, each once. -/
theorem names_yields (sound : h.Sound) (l : Layout) :
    (names l).Yields h
      (fun found g => Quiet h g ∧ found.Nodup ∧ ∀ name, name ∈ found ↔ l.Occurs h name) (Quiet h) := by
  have nonempty : l.tagStore.folder ≠ [] := by
    change join [l.root, Layout.tagsName] ≠ []
    rw [join_pair _ _ (by decide)]
    exact clean_ne_nil _
  rw [names]
  refine ((ObjectStore.list_yields sound nonempty).mono (fun _ _ listed => listed) ?_).bind ?_
  · rintro _ rfl
    exact quiet_lasting.refl _
  · rintro ids h ⟨rfl, all⟩
    have gathered := (gather_yields l h ids [] (quiet_lasting.refl h)).during (lit "autocomplete")
    rw [Yields, ends_map]
    refine gathered.ends ?_ fun _ _ same => same
    rintro found g ⟨same, exactly⟩
    refine ⟨same, arrange_nodup found, fun name => ?_⟩
    rw [mem_arrange, exactly, Layout.Occurs]
    constructor
    · rintro (impossible | ⟨id, -, occurs⟩)
      · cases impossible
      · exact ⟨id, occurs⟩
    · rintro ⟨id, s, member, isName⟩
      refine .inr ⟨id, ?_, s, member, isName⟩
      rw [Layout.symbolsAt] at member
      split at member
      · rename_i valid
        cases there : h.contentAt? (l.tagStore.path id) with
        | none =>
            rw [there] at member
            cases member
        | some data => exact all id data valid there
      · cases member

/-- A list that was made is current.  Otherwise the project is as it was. -/
theorem build_yields (sound : h.Sound) (l : Layout) {apart lasting : List Bytes}
    (other : Layout.namesName ∉ lasting) (tags : Layout.tagsName ∈ lasting) :
    (build l).Yields h (fun _ g => l.Spares lasting h g ∧ l.Current g) (l.Spares apart h) := by
  have isName : IsName Layout.namesName := ⟨⟨by decide, by decide, by decide⟩, by decide⟩
  have start : ∀ {apart}, l.Spares apart h h := Layout.Spares.refl sound
  rw [build]
  refine ((names_yields sound l).mono (fun _ _ ended => ended) fun _ same => start.quiet same).bind ?_
  rintro found g ⟨same, once, exactly⟩
  have sound' : g.Sound := same.sound sound
  have written := AtomicFile.writing_yields (d := l.root) sound' isName
    (AtomicFile.write_appends (text found))
  refine ((written.during _).mono (fun _ _ ended => ended) fun _ grown => ?_).bind ?_
  · exact (start.quiet same).trans (.of_grows grown)
  · rintro _ k ⟨put, there⟩
    have spares : l.Spares lasting g k := .of_puts put (g.locate_join l.root isName) other
    have spares := (start.quiet same).trans spares
    have list : k.contentAt? l.names = some (text found) := by
      change k.contentAt? (join [l.root, Layout.namesName]) = _
      rw [contentAt?, there]
    refine ⟨spares, found, list, once, fun name => (exactly name).trans ?_⟩
    exact (Layout.occurs_congr (spares.symbolsAt sound tags) name).symm

end NameList

end SymbolHistory
