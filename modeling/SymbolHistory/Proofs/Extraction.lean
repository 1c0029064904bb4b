/-
# Proofs.Extraction -- where the members of a bundle go

Unpacking a member begins a file in the folder of its destination, writes it and
moves it.  `Passes` lists the hosts that this goes through, those with a
temporary file among them.  As long as the destination of every member is
strictly below the database, each of these hosts is what the first was, but for
what is strictly below the database (`Beneath`).

Whether it is depends on the name alone.  A name that means steps down is put
below the database, one that begins with a way up or at the root is refused
(`destination?_eq_some`).  The name that stays is not refused, although it leads
to the database itself: its temporary file is in the folder that the database
is in.
-/
import SymbolHistory.Bundle
import SymbolHistory.Proofs.AtomicWrites
import SymbolHistory.Proofs.Descents

set_option autoImplicit false

namespace SymbolHistory

open SymbolHistory.Path FileTree Run Host

namespace FileTree

/-- `u` is `t` but for what is strictly below `l`, and for folders made at `l` and on the way there. -/
def Beneath (l : Location) (t u : FileTree) : Prop :=
  ∀ k, u.get? k = t.get? k ∨ l <+: k ∧ k ≠ l ∨
    k <+: l ∧ t.get? k = none ∧ u.get? k = some .folder

namespace Beneath

variable {l : Location} {t u m : FileTree}

theorem refl (l : Location) (t : FileTree) : Beneath l t t := fun _ => .inl rfl

theorem trans (first : Beneath l t m) (second : Beneath l m u) : Beneath l t u := by
  intro k
  rcases second k with same | below | ⟨way, absent, made⟩
  · rcases first k with same' | below | ⟨way, absent, made⟩
    · exact .inl (same.trans same')
    · exact .inr (.inl below)
    · exact .inr (.inr ⟨way, absent, same.trans made⟩)
  · exact .inr (.inl below)
  · rcases first k with same' | below | ⟨-, -, made'⟩
    · exact .inr (.inr ⟨way, same'.symm.trans absent, made⟩)
    · exact .inr (.inl below)
    · rw [absent] at made'
      cases made'

end Beneath

theorem Grows.beneath {l d : Location} {t u : FileTree} (grows : Grows d t u) (below : l <+: d) :
    Beneath l t u := by
  intro k
  rcases grows k with same | ⟨way, absent, made⟩
  · exact .inl same
  · rcases List.prefix_or_prefix_of_prefix way below with above | under
    · exact .inr (.inr ⟨above, absent, made⟩)
    · by_cases here : k = l
      · exact .inr (.inr ⟨here ▸ List.prefix_rfl, absent, made⟩)
      · exact .inr (.inl ⟨under, here⟩)

theorem Lands.beneath {l d k : Location} {data : Bytes} {t u : FileTree} (lands : Lands d k data t u)
    (folder : l <+: d) (below : l <+: k) (other : k ≠ l) : Beneath l t u := by
  obtain ⟨m, grows, after⟩ := lands
  refine (grows.beneath folder).trans fun j => ?_
  by_cases here : j = k
  · exact .inr (.inl ⟨here ▸ below, here ▸ other⟩)
  · exact .inl ((after j).trans (if_neg here))

end FileTree

/-- A file that is being written in a folder below `l` changes nothing that is not below `l`. -/
theorem Draft.beneath {h m g : Host} {d l : Location} {temp content : Bytes}
    (draft : Draft h m g d temp content) (folder : l <+: d) : Changes (Beneath l) h g := by
  refine ⟨sameSetting_lasting.trans draft.base.toSameSetting draft.setting,
    draft.cache.trans draft.base.cache, draft.sound, ?_⟩
  refine (draft.base.tree.beneath folder).trans fun k => ?_
  by_cases here : k = h.locate temp
  · obtain ⟨name, place⟩ := draft.isIn
    refine .inr (.inl ⟨?_, fun same => ?_⟩)
    · rw [here, place]
      exact folder.trans (List.prefix_append d [name])
    · -- the temporary file is one step further down than its folder
      have long := folder.length_le
      rw [← same, here, place, List.length_append, List.length_singleton] at long
      omega
  · exact .inl ((draft.tree k).trans (if_neg here))

namespace Bundle

variable {db : Bytes} {h g : Host}

/-! ## Destinations -/

/-- A name that descends is put below the database. -/
theorem destination?_of_descends {name : Bytes} {ss : List Bytes} (descends : Descends name ss) :
    destination? db name = some (join [db, ofSteps false ss]) := by
  have up : Bytes.startsWith (parent ++ [slash]) (clean name) = false := by
    rw [Bytes.startsWith, ← Bool.not_eq_true, List.isPrefixOf_iff_prefix]
    rintro ⟨rest, same⟩
    exact descends.not_up rest same.symm
  have goes : (clean name == parent) = false := by simpa using descends.ne_parent
  simp only [destination?, descends.relative, goes, up]
  rw [descends.clean]
  rfl

/-- The name that stays is put where the database is. -/
theorem destination?_of_here {name : Bytes} (stays : clean name = here) :
    destination? db name = some (join [db, here]) := by
  simp only [destination?, stays]
  rfl

/-- A name that is not refused descends or stays. -/
theorem destination?_eq_some {name dest : Bytes} (found : destination? db name = some dest) :
    clean name = here ∧ dest = join [db, here] ∨
      ∃ ss, Descends name ss ∧ dest = join [db, ofSteps false ss] := by
  rcases clean_cases name with absolute | goesUp | stays | ⟨ss, descends⟩
  · simp [destination?, isAbsolute_clean, absolute] at found
  · rcases goesUp with is | ⟨rest, is⟩
    · simp [destination?, is] at found
    · have up : Bytes.startsWith (parent ++ [slash]) (clean name) = true := by
        rw [Bytes.startsWith, List.isPrefixOf_iff_prefix, is]
        exact List.prefix_append _ _
      simp [destination?, up] at found
  · rw [destination?_of_here stays] at found
    exact .inl ⟨stays, (Option.some.inj found).symm⟩
  · rw [destination?_of_descends descends] at found
    exact .inr ⟨ss, descends, (Option.some.inj found).symm⟩

/-- What descends is put strictly below the database, in a folder that is there or below. -/
theorem locate_destination (h : Host) {name dest : Bytes} {ss : List Bytes}
    (descends : Descends name ss) (found : destination? db name = some dest) :
    h.locate dest = h.locate db ++ ss ∧ h.locate (dir dest) = h.locate db ++ ss.dropLast := by
  rw [destination?_of_descends descends] at found
  obtain rfl := Option.some.inj found
  obtain ⟨init, last, rfl⟩ : ∃ init last, ss = init ++ [last] :=
    ⟨_, _, (List.dropLast_concat_getLast descends.nonempty).symm⟩
  refine ⟨h.locate_under db descends.names, ?_⟩
  rw [h.locate_dir_under db descends.names, List.dropLast_concat]

/-- Where nothing stays, every destination is strictly below the database. -/
theorem locate_of_not_here (h : Host) {name dest : Bytes} (found : destination? db name = some dest)
    (moves : clean name ≠ here) :
    h.locate db <+: h.locate dest ∧ h.locate dest ≠ h.locate db ∧
      h.locate db <+: h.locate (dir dest) := by
  obtain ⟨stays, -⟩ | ⟨ss, descends, -⟩ := destination?_eq_some found
  · exact absurd stays moves
  · obtain ⟨place, folder⟩ := locate_destination h descends found
    rw [place, folder]
    refine ⟨List.prefix_append _ _, fun same => ?_, List.prefix_append _ _⟩
    exact descends.nonempty (List.append_right_eq_self.mp same)

/-! ## The hosts in between -/

/-- Unpacking members into a database, begun on a host, goes through these hosts: after the
temporary file was made, after it was written, after the member was finished or given up, and on
with the next member. -/
inductive Passes (db : Bytes) : List Arrival → Host → Host → Prop
  | start {ms h} : Passes db ms h h
  | begun {m rest dest h} (found : destination? db m.name = some dest) :
      Passes db (m :: rest) h ((AtomicFile.create dest).on h).2
  | written {m rest dest f h g} (found : destination? db m.name = some dest)
      (created : (AtomicFile.create dest).on h = (.ok f, g)) :
      Passes db (m :: rest) h ((f.write m.content).on g).2
  | finished {m rest h} : Passes db (m :: rest) h ((extractMember db m).on h).2
  | next {m rest h g k} (unpacked : (extractMember db m).on h = (.ok (), g))
      (later : Passes db rest g k) : Passes db (m :: rest) h k

/-- Unpacking a member writes its content, and may fail over what ends it early. -/
theorem content_appends (m : Arrival) :
    AtomicFile.Appends m.content fun f =>
      Run.during (lit "extract " ++ m.name) (copyContent f m) := by
  refine ((AtomicFile.write_appends m.content).followed fun k => ?_).during _
  cases m.flaw with
  | none => exact (yields_pure _ _ _ _).mpr rfl
  | some flaw => exact (yields_throw _ _ _ _).mpr rfl

/-- A member whose destination is below the database is unpacked there, or refused. -/
theorem extractMember_beneath (sound : h.Sound) (m : Arrival) (moves : clean m.name ≠ here) :
    (extractMember db m).Ends h fun _ g => Changes (Beneath (h.locate db)) h g := by
  unfold extractMember
  cases found : destination? db m.name with
  | none => exact ⟨Changes.refl (Beneath.refl _) sound⟩
  | some dest =>
      obtain ⟨below, other, folder⟩ := locate_of_not_here h found moves
      refine (AtomicFile.writing_lands sound dest (content_appends m)).ends ?_ ?_
      · rintro _ g ⟨landed, -⟩
        exact ⟨landed.toSameSetting, landed.cache, landed.sound, landed.tree.beneath folder below other⟩
      · intro _ g grown
        exact ⟨grown.toSameSetting, grown.cache, grown.sound, grown.tree.beneath folder⟩

/-- While a member is being written, only what is below the database differs. -/
theorem begun_beneath (sound : h.Sound) {name dest : Bytes} (found : destination? db name = some dest)
    (moves : clean name ≠ here) :
    (AtomicFile.create dest).Yields h
      (fun f g => Changes (Beneath (h.locate db)) h g ∧ ∀ data,
        (f.write data).Ends g fun _ k => Changes (Beneath (h.locate db)) h k)
      (fun g => Changes (Beneath (h.locate db)) h g) := by
  obtain ⟨-, -, folder⟩ := locate_of_not_here h found moves
  refine (AtomicFile.create_yields sound dest).mono ?_ ?_
  · rintro f g ⟨-, -, m, draft⟩
    refine ⟨draft.beneath folder, fun data => ?_⟩
    refine (AtomicFile.write_appends data f g [] draft.look).ends ?_ ?_
    · exact fun _ k added => (added.draft draft).beneath folder
    · rintro _ k (rfl | ⟨part, added⟩)
      · exact draft.beneath folder
      · exact (added.draft draft).beneath folder
  · intro g grown
    exact ⟨grown.toSameSetting, grown.cache, grown.sound, grown.tree.beneath folder⟩

/-- On every host that unpacking goes through, only what is strictly below the database differs. -/
theorem passes_beneath {ms : List Arrival} {k : Host} (passes : Passes db ms h k) (sound : h.Sound)
    (move : ∀ m ∈ ms, clean m.name ≠ here) : Changes (Beneath (h.locate db)) h k := by
  induction passes with
  | start => exact Changes.refl (Beneath.refl _) sound
  | @begun m rest dest h found =>
      have begun := begun_beneath sound found (move m (by simp))
      have made : (AtomicFile.create dest).Ends h fun _ g => Changes (Beneath (h.locate db)) h g :=
        begun.ends (fun _ _ made => made.1) fun _ _ failed => failed
      exact made.holds
  | @written m rest dest f h g found created =>
      have begun := begun_beneath sound found (move m (by simp))
      exact ((begun.of_ok created).2 m.content).holds
  | @finished m rest h => exact (extractMember_beneath sound m (move m (by simp))).holds
  | @next m rest h g k unpacked _ ih =>
      have first : Changes (Beneath (h.locate db)) h ((extractMember db m).on h).2 :=
        (extractMember_beneath sound m (move m (by simp))).holds
      rw [unpacked] at first
      have second := ih first.sound fun m member => move m (by simp [member])
      rw [locate_of_folder first.folder] at second
      exact first.trans second fun _ _ _ => Beneath.trans

/-- Unpacking ends on a host that it goes through, and it ends well only if no member is refused. -/
theorem extractMembers_passes (db : Bytes) (ms : List Arrival) :
    ∀ (done : Nat) (h : Host), (extractMembers db done ms).Ends h fun r k => Passes db ms h k ∧
      ∃ count failure, r = .ok (count, failure) ∧
        (failure = none → ∀ m ∈ ms, (destination? db m.name).isSome = true) := by
  induction ms with
  | nil => exact fun done h => ⟨.start, done, none, rfl, by simp⟩
  | cons m rest ih =>
      intro done h
      rw [extractMembers]
      have tried : (extractMember db m).Ends h fun r g => (extractMember db m).on h = (r, g) := ⟨rfl⟩
      refine tried.attempt_bind fun outcome g ended => ?_
      cases outcome with
      | error f =>
          refine ⟨?_, done, some f, rfl, by simp⟩
          have finished : Passes db (m :: rest) h ((extractMember db m).on h).2 := .finished
          rw [ended] at finished
          exact finished
      | ok _ =>
          refine (ih (done + 1) g).mono ?_
          rintro r k ⟨later, count, failure, rfl, whole⟩
          refine ⟨.next ended later, count, failure, rfl, fun complete => ?_⟩
          refine List.forall_mem_cons.mpr ⟨?_, whole complete⟩
          cases found : destination? db m.name with
          | some dest => rfl
          | none =>
              simp only [extractMember, found] at ended
              cases ended

/-- Whatever members a codec finds in a bundle: unless the name of a file stays where it is, unpacking
them never touches anything that is not strictly below the database, not even for a while, apart from
making folders on the way there.  A file whose name means anything but steps down makes it fail. -/
theorem extract_stays_beneath (c : Codec) (db : Bytes) (bundle : Input) (h : Host) (sound : h.Sound)
    (move : ∀ m ∈ (files (c.decode bundle)).items, clean m.name ≠ here) :
    (∀ k, Passes db (files (c.decode bundle)).items h k → Beneath (h.locate db) h.tree k.tree) ∧
    (∀ m ∈ (files (c.decode bundle)).items, ∀ dest, destination? db m.name = some dest →
      h.locate db <+: h.locate dest ∧ h.locate dest ≠ h.locate db ∧
        h.locate db <+: h.locate (dir dest)) ∧
    (c.extract db bundle).Ends h fun r k => Passes db (files (c.decode bundle)).items h k ∧
      ∃ count failure, r = .ok (count, failure) ∧
        (failure = none → ∀ m ∈ (files (c.decode bundle)).items, ∃ ss, Descends m.name ss) := by
  refine ⟨fun k passes => (passes_beneath passes sound move).tree, fun m member dest found =>
    locate_of_not_here h found (move m member), ?_⟩
  rw [Codec.extract]
  refine (extractMembers_passes db (files (c.decode bundle)).items 0 h).bind ?_ ?_
  · rintro ⟨n, failure⟩ k ⟨passes, count, failure', same, whole⟩
    cases same
    cases failure with
    | some f => exact ⟨passes, n, some f, rfl, by simp⟩
    | none =>
        refine ⟨passes, n, _, rfl, fun _ m member => ?_⟩
        obtain ⟨dest, found⟩ := Option.isSome_iff_exists.mp (whole rfl m member)
        rcases destination?_eq_some found with ⟨stays, -⟩ | ⟨ss, descends, -⟩
        · exact absurd stays (move m member)
        · exact ⟨ss, descends⟩
  · rintro e k ⟨-, _, _, same, -⟩
    cases same

/-- Two files, the second of which is to go up. -/
def strayBundle : Input :=
  ⟨encode [{ name := lit "demo//a/../config.toml", content := lit "name" },
    { name := lit "demo/../../evil", content := lit "x" }], none⟩

theorem extract_stays_beneath_stray :
    (Codec.plain.extract (lit "/db") strayBundle).Ends {} fun r k =>
      Beneath [lit "db"] {} k.tree ∧
      k.tree.get? [lit "db", lit "demo", lit "config.toml"] = some (.file (lit "name") false) ∧
      ∃ f, r = .ok (1, some f) := by
  have sound : Sound {} := by decide +kernel
  let stray : Member := { name := lit "demo/../../evil", content := lit "x" }
  -- one evaluation of the bundle for its members and for what is made of them
  have evaluated : (∀ m ∈ (files (Codec.plain.decode strayBundle)).items, clean m.name ≠ here) ∧
      stray.whole ∈ (files (Codec.plain.decode strayBundle)).items ∧
      (Codec.plain.extract (lit "/db") strayBundle).Ends {} fun r k =>
        k.tree.get? [lit "db", lit "demo", lit "config.toml"] = some (.file (lit "name") false) ∧
          r.toOption.map Prod.fst = some 1 := by
    decide +kernel
  obtain ⟨moves, isStray, there⟩ := evaluated
  obtain ⟨beneath, -, ended⟩ :=
    extract_stays_beneath .plain (lit "/db") strayBundle {} sound moves
  refine (ended.and there).mono ?_
  rintro r k ⟨⟨passes, count, failure, rfl, descend⟩, unpacked, one⟩
  refine ⟨beneath k passes, unpacked, ?_⟩
  obtain rfl : count = 1 := Option.some.inj one
  cases failure with
  | some f => exact ⟨f, rfl⟩
  | none =>
      obtain ⟨ss, descends⟩ := descend rfl _ isStray
      exact absurd (by decide) (descends.not_up (lit "evil"))

/-- A file whose name stays where it is takes the place of the database, and its temporary file is
beside the database meanwhile. -/
theorem extract_replaces_database :
    let m : Member := { name := lit "a/..", content := lit "x" }
    let bundle : Input := ⟨encode [m], none⟩
    ((Codec.plain.extract (lit "/db") bundle).on {}).1 = .ok (1, none) ∧
      ((Codec.plain.extract (lit "/db") bundle).on {}).2.tree.get? [lit "db"] =
        some (.file (lit "x") false) ∧
      ∃ k, Passes (lit "/db") (files (Codec.plain.decode bundle)).items {} k ∧
        k.tree.get? [lit ".tmp-1"] = some (.file [] false) := by
  intro m bundle
  -- one evaluation of the bundle for its members and for what is made of them
  have evaluated : (files (Codec.plain.decode bundle)).items = [m.whole] ∧
      ((Codec.plain.extract (lit "/db") bundle).on {}).1 = .ok (1, none) ∧
      ((Codec.plain.extract (lit "/db") bundle).on {}).2.tree.get? [lit "db"] =
        some (.file (lit "x") false) := by
    decide +kernel
  obtain ⟨members, done, replaced⟩ := evaluated
  refine ⟨done, replaced, ?_⟩
  rw [members]
  have found : destination? (lit "/db") m.name = some (lit "/db") := by decide
  exact ⟨_, .begun found, by decide +kernel⟩

end Bundle

end SymbolHistory
