/-
# Proofs.InterruptedPasses -- which symbol files the list of names speaks of

A pass makes the list of names anew when it organized something or found no list.
A pass that is cut off may have added symbol files without coming to the list,
and the passes after it find nothing to organize and a list that is there.  So
after any sequence of passes, cut off or not, the list is that of the last pass
that came to it (`names_of_last_listing`); it is current exactly when no symbol
file that was added since has a new name, and always when no pass since was cut
off.
-/
import SymbolHistory.Proofs.Passes

set_option autoImplicit false

namespace SymbolHistory

open SymbolHistory.Path FileTree Run Host

namespace Layout

variable {l : Layout} {h g : Host}

/-- Symbols that were there are there. -/
theorem Retains.occurs (retains : l.Retains h g) {name : Bytes} (occurs : l.Occurs h name) :
    l.Occurs g name := by
  obtain ⟨id, s, member, isName⟩ := occurs
  refine ⟨id, s, ?_, isName⟩
  rw [symbolsAt] at member ⊢
  split at member
  · rename_i valid
    rw [if_pos valid]
    cases there : h.contentAt? (l.tagStore.path id) with
    | none =>
        rw [there] at member
        cases member
    | some data =>
        rw [there] at member
        rw [retains.kept valid there]
        exact member
  · cases member

theorem Current.isThere (current : l.Current h) : (h.look l.names).isOk = true := by
  obtain ⟨names, there, -⟩ := current
  obtain ⟨x, found⟩ := exists_look_of_contentAt? there
  rw [found]
  rfl

end Layout

namespace Pipeline

/-! ## Pass after pass, cut off or not -/

/-- Passes one after another and what each came to.  Between them the files stay. -/
inductive Calls (p : Project) (usual : Host → Prop) (all : List Tag)
    (known : Tag → List FileEntry × Option Fault) :
    Host → List (Except Fault Outcome) → Host → Prop where
  | none (h : Host) : Calls p usual all known h [] h
  | call {h g g' k : Host} {outcomes : List (Except Fault Outcome)} {outcome : Except Fault Outcome}
      {tools : Tools} (earlier : Calls p usual all known h outcomes g) (same : SameFiles g g')
      (serves : tools.Serves p usual all known) (ended : (run p tools).on g' = (outcome, k)) :
      Calls p usual all known h (outcomes ++ [outcome]) k

section

variable {p : Project} {all : List Tag} {known : Tag → List FileEntry × Option Fault}
  {usual : Host → Prop} {h g m : Host} {outcomes : List (Except Fault Outcome)}

/-- What one pass does to symbol files and list, however it ends. -/
theorem leaves_of_run (sound : h.Sound) (tidy : p.layout.Tidy) {tools : Tools}
    (within : ∀ {g}, p.layout.Usual h g → usual g) (serves : tools.Serves p usual all known)
    (names : ∀ tag ∈ p.indexed all known, IsName (Tag.fileName tag.name))
    {outcome : Except Fault Outcome} (ended : (run p tools).on h = (outcome, g)) :
    p.layout.Leaves h g ∧ (outcome.isOk = true → p.layout.Refreshed h g) := by
  have leaves := (run_yields sound tidy within serves names).holds
  rw [ended] at leaves
  cases outcome with
  | ok outcome =>
      obtain ⟨pass, refreshed, -⟩ := leaves
      exact ⟨refreshed.leaves ⟨pass.sound, pass.usual, pass.kept⟩, fun _ => refreshed⟩
  | error f => exact ⟨leaves, nofun⟩

/-- On `m` the list was current; since then it has stayed, and so have the symbol files as long as
no pass was cut off. -/
structure ListedOn (p : Project) (outcomes : List (Except Fault Outcome)) (m g : Host) : Prop where
  current : p.layout.Current m
  sound : m.Sound
  retains : p.layout.Retains m g
  list : g.tree.get? (m.locate p.layout.names) = m.tree.get? (m.locate p.layout.names)
  uncut : (∀ outcome ∈ outcomes, outcome.isOk = true) → p.layout.Rests m g

/-- A list that was just made. -/
theorem ListedOn.now (current : p.layout.Current g) (sound : g.Sound) : ListedOn p [] g g :=
  have rests : p.layout.Rests g g := .of_sameFiles sound (sameFiles_lasting.refl g)
  ⟨current, sound, rests.retains, rfl, fun _ => rests⟩

/-- One more pass that did not come to the list. -/
theorem ListedOn.more {k : Host} {outcome : Except Fault Outcome} (listed : ListedOn p outcomes m g)
    (leaves : p.layout.Leaves g k)
    (same : k.tree.get? (g.locate p.layout.names) = g.tree.get? (g.locate p.layout.names))
    (rests : outcome.isOk = true → p.layout.Rests g k) : ListedOn p (outcomes ++ [outcome]) m k := by
  rw [locate_of_folder listed.retains.usual.1.folder] at same
  refine ⟨listed.current, listed.sound, listed.retains.trans leaves.toRetains,
    same.trans listed.list, fun uncut => ?_⟩
  exact (listed.uncut fun outcome member => uncut outcome (by simp [member])).trans
    (rests (uncut outcome (by simp)))

/-- After some passes the list is that of some host on the way, unless all of them were cut off. -/
theorem Calls.listedOn (tidy : p.layout.Tidy)
    (names : ∀ tag ∈ p.indexed all known, IsName (Tag.fileName tag.name))
    (calls : Calls p usual all known h outcomes g) (sound : h.Sound)
    (within : ∀ {g}, p.layout.Usual h g → usual g)
    (start : (h.look p.layout.names).isOk = false ∨ p.layout.Current h) :
    p.layout.Retains h g ∧
      ((g.look p.layout.names).isOk = false ∧ (∀ outcome ∈ outcomes, outcome.isOk = false) ∨
        ∃ before after m, outcomes = before ++ after ∧ Calls p usual all known h before m ∧
          Calls p usual all known m after g ∧ ListedOn p after m g) := by
  induction calls with
  | none =>
      have rests : p.layout.Rests h h := .of_sameFiles sound (sameFiles_lasting.refl h)
      refine ⟨rests.retains, start.imp (fun absent => ⟨absent, by simp⟩) fun current => ?_⟩
      exact ⟨[], [], h, rfl, .none h, .none h, .now current sound⟩
  | call earlier same serves ended ih =>
      rename_i g g' k outcomes outcome tools
      obtain ⟨retains, listed⟩ := ih
      have rests : p.layout.Rests g g' := .of_sameFiles retains.sound same
      obtain ⟨leaves, refreshed⟩ := leaves_of_run rests.sound tidy
        (fun usual => within ((retains.usual.trans rests.usual).trans usual)) serves names ended
      have leaves := leaves.sameFiles_before same
      have refreshed := fun success =>
        (refreshed success).sameFiles_before retains.sound same
      have calls := Calls.call earlier same serves ended
      refine ⟨retains.trans leaves.toRetains, ?_⟩
      by_cases current : p.layout.Current k
      · exact .inr ⟨_, [], k, (List.append_nil _).symm, calls, .none k, .now current leaves.sound⟩
      · have kept := leaves.list.resolve_right current
        have rested := fun success => (refreshed success).resolve_left current
        rcases listed with ⟨absent, failed⟩ | ⟨before, after, m, rfl, first, second, listed⟩
        · refine .inl ⟨?_, fun outcome' member => ?_⟩
          · rw [isOk_look_congr retains.sound leaves.sound leaves.usual.1.folder kept]
            exact absent
          · rcases List.mem_append.mp member with before | isLast
            · exact failed outcome' before
            · rw [List.mem_singleton.mp isLast, Bool.eq_false_iff]
              intro success
              rw [(rested success).1] at absent
              cases absent
        · exact .inr ⟨before, after ++ [outcome], m, List.append_assoc _ _ _, first,
            .call second same serves ended, listed.more leaves kept fun success => (rested success).2⟩

/-- After a pass that succeeded, whatever passes were cut off before it, the list of names is that
of some host on the way: the symbol files of then are still there, and the list is current exactly
when no other name occurs in those that were added since.  It is current if no pass since was cut
off. -/
theorem names_of_last_listing (p : Project) (h g : Host) (all : List Tag)
    (known : Tag → List FileEntry × Option Fault) (outcomes : List (Except Fault Outcome))
    (last : Outcome) (sound : h.Sound) (tidy : p.layout.Tidy)
    (names : ∀ tag ∈ p.indexed all known, IsName (Tag.fileName tag.name))
    (start : (h.look p.layout.names).isOk = false ∨ p.layout.Current h)
    (calls : Calls p (p.layout.Usual h) all known h (outcomes ++ [.ok last]) g) :
    ∃ before after m, outcomes ++ [.ok last] = before ++ after ∧
      Calls p (p.layout.Usual h) all known h before m ∧
      Calls p (p.layout.Usual h) all known m after g ∧
      p.layout.Current m ∧ g.contentAt? p.layout.names = m.contentAt? p.layout.names ∧
      (∀ name, p.layout.Occurs m name → p.layout.Occurs g name) ∧
      (p.layout.Current g ↔ ∀ name, p.layout.Occurs g name → p.layout.Occurs m name) ∧
      ((∀ outcome ∈ after, outcome.isOk = true) → p.layout.Current g) := by
  obtain ⟨-, ⟨-, failed⟩ | ⟨before, after, m, split, first, second, listed⟩⟩ :=
    calls.listedOn tidy names sound (fun usual => usual) start
  · have impossible := failed (.ok last) (by simp)
    cases impossible
  · have list := contentAt?_congr listed.sound listed.retains.sound listed.retains.usual.1.folder listed.list
    have kept : ∀ name, p.layout.Occurs m name → p.layout.Occurs g name :=
      fun name occurs => listed.retains.occurs occurs
    refine ⟨before, after, m, split, first, second, listed.current, list, kept, ?_, fun uncut => ?_⟩
    · rw [listed.current.iff_of_list list]
      exact forall_congr' fun name => ⟨fun same => same.mp, fun new => ⟨new, kept name⟩⟩
    · exact (listed.uncut uncut).current listed.sound listed.current

end

/-! ## A list that is never mended -/

/-- A table that lists the symbol of the file, and then one of a content that is not stored. -/
def haltingTable : Bytes :=
  mendedTable ++ lit "beta\t" ++ Layout.objectRef (List.replicate 40 48) ++ lit "\t1;\"\tf\n"

/-- The project after a second pass, which is cut off when it comes to that content. -/
def halted : Host := ((run mendedProject (mendedTools haltingTable)).on spoiled).2

/-- The project after a third pass, which has nothing to organize. -/
def resumed : Host := ((run mendedProject (mendedTools [])).on halted).2

/-- The second pass is cut off, and the third leaves the list of the first, which is empty. -/
theorem resumed_ends :
    ((run mendedProject (mendedTools haltingTable)).on spoiled).1.isOk = false ∧
    ((run mendedProject (mendedTools [])).on halted).1.isOk = true ∧
    resumed.contentAt? mendedProject.layout.names = some [] ∧
    (mendedProject.layout.symbolsAt resumed mendedId).map (·.name) = [lit "alpha"] := by
  decide +kernel

theorem on_of_isOk_false {α : Type} {work : Run α} {h : Host} (failure : (work.on h).1.isOk = false) :
    ∃ f, work.on h = (.error f, (work.on h).2) := by
  cases ended : work.on h with
  | mk r g =>
      cases r with
      | error f => exact ⟨f, rfl⟩
      | ok a =>
          rw [ended] at failure
          cases failure

theorem halted_pass : ∃ fault,
    (run mendedProject (mendedTools haltingTable)).on spoiled = (.error fault, halted) := by
  rw [halted]
  exact on_of_isOk_false resumed_ends.1

theorem resumed_pass : ∃ outcome,
    (run mendedProject (mendedTools [])).on halted = (.ok outcome, resumed) := by
  rw [resumed]
  exact on_of_isOk resumed_ends.2.1

/-- The list is that of some host on the way. -/
theorem names_of_last_listing_resumed : ∃ m, mendedProject.layout.Current m ∧
    resumed.contentAt? mendedProject.layout.names = m.contentAt? mendedProject.layout.names ∧
    (mendedProject.layout.Current resumed ↔
      ∀ name, mendedProject.layout.Occurs resumed name → mendedProject.layout.Occurs m name) := by
  obtain ⟨first, firstPass⟩ := spoiled_pass
  obtain ⟨fault, secondPass⟩ := halted_pass
  obtain ⟨last, thirdPass⟩ := resumed_pass
  have start : (unpassed.look mendedProject.layout.names).isOk = false := by decide +kernel
  have serves := fun table =>
    mendedTools_serves table (mendedProject.layout.Usual unpassed)
  have calls : Calls mendedProject (mendedProject.layout.Usual unpassed) mendedSource.tags
      (Source.answer mendedSource) unpassed ([.ok first, .error fault] ++ [.ok last]) resumed :=
    .call (.call (.call (.none unpassed) (sameFiles_lasting.refl _) (serves _) firstPass)
      (sameFiles_lasting.refl _) (serves _) secondPass) (sameFiles_lasting.refl _) (serves _) thirdPass
  obtain ⟨-, -, m, -, -, -, current, list, -, exactly, -⟩ := names_of_last_listing mendedProject
    unpassed resumed mendedSource.tags (Source.answer mendedSource) [.ok first, .error fault] last
    unpassed_sound mended_tidy mended_names (.inl start) calls
  exact ⟨m, current, list, exactly⟩

/-- The last of three passes succeeds and a symbol file has a name, yet the list is empty. -/
theorem list_stale_resumed :
    (∃ first, (run mendedProject (mendedTools (lit "junk\n"))).on unpassed = (.ok first, spoiled)) ∧
    (∃ fault, (run mendedProject (mendedTools haltingTable)).on spoiled = (.error fault, halted)) ∧
    (∃ last, (run mendedProject (mendedTools [])).on halted = (.ok last, resumed)) ∧
    ¬mendedProject.layout.Current resumed := by
  obtain ⟨-, -, empty, symbols⟩ := resumed_ends
  refine ⟨spoiled_pass, halted_pass, resumed_pass, ?_⟩
  rintro ⟨names, there, -, exactly⟩
  have alpha : lit "alpha" ∈ (mendedProject.layout.symbolsAt resumed mendedId).map (·.name) := by
    rw [symbols]
    exact List.mem_cons_self
  obtain ⟨s, member, isName⟩ := List.mem_map.mp alpha
  have listed := (exactly (lit "alpha")).mpr ⟨mendedId, s, member, isName⟩
  have nothing : NameList.text names = [] := by
    rw [empty] at there
    exact (Option.some.inj there).symm
  cases names with
  | nil => cases listed
  | cons name names => simp [NameList.text] at nothing

end Pipeline

end SymbolHistory
