/-
# Proofs.ConcurrentWrites -- writers that work side by side

Any number of writers, each with a file of its own on the way to a destination,
begin, write and finish in any order, and each may stop for good between two
steps.  `Step` is one step of one of them, or of somebody who reads.

What a step keeps is `Fits`: a writer that is not finished has what it wrote in
its temporary file, one that is finished has none, and a destination holds what
was committed to it last.  Temporary names being new is what keeps writers from
each other's files; the rest is that a commit is one step.
-/
import Mathlib.Logic.Relation
import SymbolHistory.Proofs.AtomicWrites

set_option autoImplicit false

namespace SymbolHistory

open SymbolHistory.Path FileTree Run Host

/-! ## Contents at locations -/

namespace FileTree

def content? (t : FileTree) (l : Location) : Option Bytes :=
  match t.get? l with
  | some (.file content _) => some content
  | _ => none

/-- What is at a location stays; where nothing is a folder may be made. -/
def Stays (t u : FileTree) (l : Location) : Prop :=
  u.get? l = t.get? l ∨ t.get? l = none ∧ u.get? l = some .folder

variable {t u : FileTree} {l : Location}

theorem content?_of_get? {content : Bytes} {executable : Bool}
    (there : t.get? l = some (.file content executable)) : t.content? l = some content := by
  rw [content?, there]

theorem content?_of_none (absent : t.get? l = none) : t.content? l = none := by
  rw [content?, absent]

theorem content?_congr (same : u.get? l = t.get? l) : u.content? l = t.content? l := by
  rw [content?, content?, same]

theorem Stays.content? (stays : Stays t u l) : u.content? l = t.content? l := by
  rcases stays with same | ⟨absent, made⟩
  · exact content?_congr same
  · rw [FileTree.content?, FileTree.content?, absent, made]

theorem Stays.some {n : Node} (stays : Stays t u l) (there : t.get? l = some n) :
    u.get? l = some n := by
  rcases stays with same | ⟨absent, -⟩
  · exact same.trans there
  · rw [there] at absent
    cases absent

theorem Grows.stays {d : Location} (grows : Grows d t u) (l : Location) : Stays t u l :=
  (grows l).imp_right And.right

/-- Between `t` and `u` something happened at the locations `here`, and folders were made on the way
to `d`. -/
def Touches (d : Location) (here : Location → Prop) (t u : FileTree) : Prop :=
  ∀ l, here l ∨ u.get? l = t.get? l ∨ l <+: d ∧ t.get? l = none ∧ u.get? l = some .folder

theorem Touches.refl (d : Location) (here : Location → Prop) (t : FileTree) : Touches d here t t :=
  fun _ => .inr (.inl rfl)

end FileTree

namespace Host

/-- A path that leads to a file leads to what is at its location. -/
theorem content?_of_contentAt? {h : Host} (sound : h.Sound) {p data : Bytes}
    (found : h.contentAt? p = some data) : h.tree.content? (h.locate p) = some data := by
  obtain ⟨executable, look⟩ := exists_look_of_contentAt? found
  exact content?_of_get? ((look_eq_ok_iff sound).mp look).2.1

end Host

/-! ## Writers -/

namespace AtomicFile

/-- Somebody who writes a file, and what has been written to it. -/
structure Writer where
  file : AtomicFile
  written : Bytes := []

/-- Writers, those of them who stopped for good, and what was committed where, latest first. -/
structure Writers (ι : Type) where
  writer : ι → Option Writer := fun _ => none
  crashed : List ι := []
  commits : List (Location × Bytes) := []

namespace Writers

variable {ι : Type} [DecidableEq ι]

/-- One writer comes to something else. -/
def set (ws : Writers ι) (i : ι) (w : Writer) : Writers ι :=
  { ws with writer := fun j => if j = i then some w else ws.writer j }

/-- What was committed to a location last. -/
def last? (ws : Writers ι) (l : Location) : Option Bytes :=
  (ws.commits.find? fun commit => commit.1 == l).map Prod.snd

/-- A writer finishes its file; what it wrote is committed if that is what it did. -/
def finish (ws : Writers ι) (i : ι) (w : Writer) (file : AtomicFile) (l : Location) :
    Finish → Except Fault Unit → Writers ι
  | .commit, .ok _ => { ws.set i { w with file } with commits := (l, w.written) :: ws.commits }
  | _, _ => ws.set i { w with file }

@[simp] theorem set_self (ws : Writers ι) (i : ι) (w : Writer) : (ws.set i w).writer i = some w :=
  if_pos rfl

theorem set_other (ws : Writers ι) {i j : ι} (w : Writer) (other : j ≠ i) :
    (ws.set i w).writer j = ws.writer j := if_neg other

theorem set_same {ws : Writers ι} {i : ι} {w : Writer} (is : ws.writer i = some w) :
    ws.set i w = ws := by
  have same : (ws.set i w).writer = ws.writer := by
    funext j
    by_cases here : j = i
    · rw [here, set_self, is]
    · exact ws.set_other w here
  show { ws with writer := (ws.set i w).writer } = ws
  rw [same]

theorem finish_other (ws : Writers ι) {i j : ι} (w : Writer) (file : AtomicFile) (l : Location)
    (how : Finish) (outcome : Except Fault Unit) (other : j ≠ i) :
    (ws.finish i w file l how outcome).writer j = ws.writer j := by
  unfold finish
  split <;> exact ws.set_other _ other

end Writers

/-- One step of a writer, or of somebody who changes no file.  The destinations are at the locations
`wanted`, and no temporary file gets the name of one. -/
inductive Step {ι : Type} [DecidableEq ι] (wanted : Location → Prop) :
    Writers ι × Host → Writers ι × Host → Prop
  /-- A writer begins a file. -/
  | create {ws : Writers ι} {g k : Host} {i : ι} {dest : Bytes} {f : AtomicFile} :
      ws.writer i = none → i ∉ ws.crashed → wanted (g.locate dest) →
      (AtomicFile.create dest).on g = (.ok f, k) → ¬wanted (g.locate f.temp) →
      Step wanted (ws, g) (ws.set i { file := f }, k)
  /-- A file could not be begun. -/
  | createFails {ws : Writers ι} {g k : Host} {dest : Bytes} {e : Fault} :
      (AtomicFile.create dest).on g = (.error e, k) → Step wanted (ws, g) (ws, k)
  /-- Somebody who begins a file comes no further than the folders on the way. -/
  | folders {ws : Writers ι} {g k : Host} {dest : Bytes} {r : Except Fault Unit} :
      (makeFolders (dir dest)).on g = (r, k) → Step wanted (ws, g) (ws, k)
  /-- A writer writes something to its file. -/
  | write {ws : Writers ι} {g k : Host} {i : ι} {w : Writer} {data : Bytes} :
      ws.writer i = some w → i ∉ ws.crashed → w.file.done = false →
      (w.file.write data).on g = (.ok (), k) →
      Step wanted (ws, g) (ws.set i { w with written := w.written ++ data }, k)
  /-- Something could not be written. -/
  | writeFails {ws : Writers ι} {g k : Host} {i : ι} {w : Writer} {data : Bytes} {e : Fault} :
      ws.writer i = some w → i ∉ ws.crashed → w.file.done = false →
      (w.file.write data).on g = (.error e, k) → Step wanted (ws, g) (ws, k)
  /-- A writer commits or aborts its file, for the first time or again. -/
  | finish {ws : Writers ι} {g k : Host} {i : ι} {w : Writer} {how : Finish} {f : AtomicFile}
      {outcome : Except Fault Unit} :
      ws.writer i = some w → i ∉ ws.crashed → (w.file.finish how).on g = (.ok (f, outcome), k) →
      Step wanted (ws, g) (ws.finish i w f (g.locate w.file.dest) how outcome, k)
  /-- A writer stops for good. -/
  | crash {ws : Writers ι} {g : Host} (i : ι) :
      Step wanted (ws, g) ({ ws with crashed := i :: ws.crashed }, g)
  /-- Somebody reads, or does something else that changes no file. -/
  | read {ws : Writers ι} {g k : Host} : Quiet g k → Step wanted (ws, g) (ws, k)

/-! ## What steps keep -/

section

variable {ι : Type}

/-- What a writer that began after `h` has on `g`. -/
structure Writer.Fits (wanted : Location → Prop) (h g : Host) (w : Writer) : Prop where
  dest : wanted (h.locate w.file.dest)
  notWanted : ¬wanted (h.locate w.file.temp)
  named : ∃ n, h.locate w.file.temp = h.locate (dir w.file.dest) ++ [stem ++ Decimal.ofNat n]
  writing : w.file.done = false → g.look w.file.temp = .ok (.file w.written false)

/-- What writers that began after `h` have made of it.  The name of a temporary file may be given out
again when the file is finished. -/
structure Fits (wanted : Location → Prop) (h : Host) (ws : Writers ι) (g : Host) : Prop where
  setting : SameSetting h g
  sound : g.Sound
  each : ∀ i w, ws.writer i = some w → w.Fits wanted h g
  apart : ∀ i j w v, ws.writer i = some w → ws.writer j = some v → i ≠ j → w.file.done = false →
    v.file.done = false → h.locate w.file.temp ≠ h.locate v.file.temp
  finished : ∀ i w, ws.writer i = some w → w.file.done = true →
    (∀ j v, ws.writer j = some v → v.file.done = false →
      h.locate v.file.temp ≠ h.locate w.file.temp) →
    g.tree.content? (h.locate w.file.temp) = none
  content : ∀ l, wanted l → g.tree.content? l = (ws.last? l).or (h.tree.content? l)

variable {wanted : Location → Prop} {h g k : Host} {ws : Writers ι}

theorem Fits.begin (sound : h.Sound) : Fits wanted h ({} : Writers ι) h :=
  ⟨sameSetting_lasting.refl h, sound, nofun, nofun, nofun, fun _ _ => rfl⟩

theorem Fits.locate (fits : Fits wanted h ws g) (p : Bytes) : g.locate p = h.locate p :=
  locate_of_folder fits.setting.folder p

/-- What is in the temporary file of a writer that is not finished. -/
theorem Fits.temporary (fits : Fits wanted h ws g) {i : ι} {w : Writer} (is : ws.writer i = some w)
    (open_ : w.file.done = false) :
    pathFlaw w.file.temp = none ∧
      g.tree.get? (h.locate w.file.temp) = some (.file w.written false) ∧
      Short (h.locate w.file.temp) := by
  have there := (look_eq_ok_iff fits.sound).mp ((fits.each i w is).writing open_)
  rwa [fits.locate] at there

/-- A writer whose temporary file is left alone. -/
theorem Writer.Fits.stay {w : Writer} (own : w.Fits wanted h g) (fits : AtomicFile.Fits wanted h ws g)
    (sound : k.Sound) (setting : SameSetting g k)
    (stays : w.file.done = false → Stays g.tree k.tree (h.locate w.file.temp)) :
    w.Fits wanted h k where
  dest := own.dest
  notWanted := own.notWanted
  named := own.named
  writing open_ := by
    obtain ⟨flaw, there, short⟩ := (look_eq_ok_iff fits.sound).mp (own.writing open_)
    rw [fits.locate] at there short
    rw [look_eq_ok_iff sound, locate_of_folder setting.folder, fits.locate]
    exact ⟨flaw, (stays open_).some there, short⟩

/-- Nothing that writers care about changes but that folders are made. -/
theorem Fits.stay (fits : Fits wanted h ws g) (sound : k.Sound) (setting : SameSetting g k)
    (stays : ∀ l, Stays g.tree k.tree l) : Fits wanted h ws k where
  setting := sameSetting_lasting.trans fits.setting setting
  sound := sound
  each i w is := (fits.each i w is).stay fits sound setting fun _ => stays _
  apart := fits.apart
  finished i w is done unused := (stays _).content?.trans (fits.finished i w is done unused)
  content l isWanted := (stays l).content?.trans (fits.content l isWanted)

variable [DecidableEq ι]

/-- One writer does something to its temporary file, and possibly to its destination. -/
theorem Fits.change (fits : Fits wanted h ws g) {i : ι} {w : Writer}
    {commits : List (Location × Bytes)} (sound : k.Sound) (setting : SameSetting g k)
    (own : w.Fits wanted h k) (before : ∀ v, ws.writer i = some v → v.file.temp = w.file.temp)
    (apart : ∀ j v, ws.writer j = some v → j ≠ i → v.file.done = false →
      h.locate v.file.temp ≠ h.locate w.file.temp)
    (gone : w.file.done = true → k.tree.content? (h.locate w.file.temp) = none)
    (stays : ∀ l, l ≠ h.locate w.file.temp → ¬wanted l → Stays g.tree k.tree l)
    (content : ∀ l, wanted l → k.tree.content? l =
      (({ ws with commits } : Writers ι).last? l).or (h.tree.content? l)) :
    Fits wanted h { ws.set i w with commits } k := by
  have cases_of : ∀ {j v}, ({ ws.set i w with commits } : Writers ι).writer j = some v →
      j = i ∧ v = w ∨ j ≠ i ∧ ws.writer j = some v := by
    intro j v is
    change (ws.set i w).writer j = some v at is
    by_cases same : j = i
    · subst same
      rw [Writers.set_self] at is
      exact .inl ⟨rfl, (Option.some.inj is).symm⟩
    · rw [Writers.set_other _ _ same] at is
      exact .inr ⟨same, is⟩
  refine ⟨sameSetting_lasting.trans fits.setting setting, sound, ?_, ?_, ?_, content⟩
  · intro j v is
    rcases cases_of is with ⟨rfl, rfl⟩ | ⟨other, is⟩
    · exact own
    · exact (fits.each j v is).stay fits sound setting fun open_ =>
        stays _ (apart j v is other open_) (fits.each j v is).notWanted
  · intro j j' v v' is is' other open_ open'
    rcases cases_of is with ⟨rfl, rfl⟩ | ⟨-, old⟩
    · rcases cases_of is' with ⟨same, -⟩ | ⟨-, old'⟩
      · exact absurd same.symm other
      · exact (apart j' v' old' (Ne.symm other) open').symm
    · rcases cases_of is' with ⟨rfl, rfl⟩ | ⟨-, old'⟩
      · exact apart j v old other open_
      · exact fits.apart j j' v v' old old' other open_ open'
  · intro j v is done unused
    rcases cases_of is with ⟨rfl, rfl⟩ | ⟨notOwn, is⟩
    · exact gone done
    · by_cases shared : h.locate v.file.temp = h.locate w.file.temp
      · cases finished : w.file.done with
        | true => rw [shared]; exact gone finished
        | false => exact absurd shared.symm (unused i w (Writers.set_self ws i w) finished)
      · have kept := stays _ shared (fits.each j v is).notWanted
        refine kept.content?.trans (fits.finished j v is done fun j' v' is' open_ => ?_)
        by_cases old : j' = i
        · rw [before v' (old ▸ is')]
          exact Ne.symm shared
        · exact unused j' v' ((Writers.set_other ws w old).trans is') open_

/-- A writer that is not finished comes to have something in its temporary file. -/
theorem Fits.fill (fits : Fits wanted h ws g) {i : ι} {w : Writer} {t : FileTree} {d : Location}
    (sound : k.Sound) (setting : SameSetting g k) (grows : Grows d g.tree t)
    (tree : ∀ l, k.tree.get? l =
      if l = h.locate w.file.temp then some (.file w.written false) else t.get? l)
    (open_ : w.file.done = false) (flaw : pathFlaw w.file.temp = none)
    (short : Short (h.locate w.file.temp)) (dest : wanted (h.locate w.file.dest))
    (notWanted : ¬wanted (h.locate w.file.temp))
    (named : ∃ n, h.locate w.file.temp = h.locate (dir w.file.dest) ++ [stem ++ Decimal.ofNat n])
    (before : ∀ v, ws.writer i = some v → v.file.temp = w.file.temp)
    (apart : ∀ j v, ws.writer j = some v → j ≠ i → v.file.done = false →
      h.locate v.file.temp ≠ h.locate w.file.temp) :
    Fits wanted h (ws.set i w) k ∧ Touches d (· = h.locate w.file.temp) g.tree k.tree := by
  have same : ∀ l, l ≠ h.locate w.file.temp → k.tree.get? l = t.get? l :=
    fun l other => (tree l).trans (if_neg other)
  have kept : ∀ l, l ≠ h.locate w.file.temp → Stays g.tree k.tree l := by
    intro l other
    rw [Stays, same l other]
    exact grows.stays l
  have writing : k.look w.file.temp = .ok (.file w.written false) := by
    rw [look_eq_ok_iff sound, locate_of_folder setting.folder, fits.locate, tree, if_pos rfl]
    exact ⟨flaw, rfl, short⟩
  constructor
  · refine fits.change sound setting ⟨dest, notWanted, named, fun _ => writing⟩ before apart ?_
      (fun l other _ => kept l other) fun l isWanted => ?_
    · intro done
      rw [open_] at done
      cases done
    · have other : l ≠ h.locate w.file.temp := fun e => notWanted (e ▸ isWanted)
      exact (kept l other).content?.trans (fits.content l isWanted)
  · intro l
    by_cases here : l = h.locate w.file.temp
    · exact .inl here
    · rw [same l here]
      exact .inr (grows l)

/-- A new temporary file is where nothing was, and empty. -/
theorem Fits.create (fits : Fits wanted h ws g) {i : ι} {dest : Bytes} {f : AtomicFile}
    (free : ws.writer i = none) (isWanted : wanted (g.locate dest))
    (created : (AtomicFile.create dest).on g = (.ok f, k)) (notWanted : ¬wanted (g.locate f.temp)) :
    Fits wanted h (ws.set i { file := f }) k ∧
      Touches (h.locate (dir dest)) (· = h.locate f.temp) g.tree k.tree := by
  obtain ⟨rfl, open_, m, n, base, place, absent, folder, flaw, short, written⟩ :=
    (create_temporary fits.sound dest).of_ok created
  have same := fits.locate f.temp
  have grows := base.tree
  rw [locate_of_folder base.folder, locate_of_folder base.folder, same, fits.locate] at place
  rw [locate_of_folder base.folder, fits.locate] at folder
  rw [locate_of_folder base.folder, same] at absent short written
  rw [fits.locate] at grows
  have leaf : m.tree.get? (h.locate f.temp) ≠ some .folder := by simp [absent]
  have set := sound_of_set (l := h.locate f.temp) (n := .file [] false) base.sound
    (by rw [place, List.dropLast_concat]; exact folder) leaf
  refine fits.fill (t := m.tree) ?_ ?_ grows (fun l => ?_) open_ flaw short
    (fits.locate f.dest ▸ isWanted) (same ▸ notWanted) ⟨n, place⟩ ?_ fun j v is _ openV shared => ?_
  · rw [written]
    exact ⟨set.tree, set.home⟩
  · rw [written]
    exact ⟨base.folder, base.repositories, base.environment⟩
  · rw [written]
    exact get?_set _ _ _ _ (ne_nil_of_not_folder leaf)
  · rw [free]
    nofun
  · have there := (grows.stays _).some (fits.temporary is openV).2.1
    rw [shared, absent] at there
    cases there

/-- What is written goes to the end of the temporary file. -/
theorem Fits.write (fits : Fits wanted h ws g) {i : ι} {w : Writer} {data : Bytes}
    (is : ws.writer i = some w) (open_ : w.file.done = false)
    (wrote : (w.file.write data).on g = (.ok (), k)) (d : Location) :
    Fits wanted h (ws.set i { w with written := w.written ++ data }) k ∧
      Touches d (· = h.locate w.file.temp) g.tree k.tree := by
  have own := fits.each i w is
  obtain ⟨flaw, here, short⟩ := fits.temporary is open_
  have written := (append_yields (own.writing open_) data).of_ok wrote
  rw [fits.locate] at written
  have leaf : g.tree.get? (h.locate w.file.temp) ≠ some .folder := by simp [here]
  have set := sound_of_set (n := .file (w.written ++ data) false) fits.sound
    (fits.sound.tree.get?_dropLast (Option.isSome_of_eq_some here)) leaf
  refine fits.fill (w := { w with written := w.written ++ data }) ?_ ?_ (.refl d g.tree) (fun l => ?_)
    open_ flaw short own.dest own.notWanted own.named ?_ fun j v is' other openV =>
      fits.apart j i v w is' is other openV open_
  · rw [written]
    exact ⟨set.tree, set.home⟩
  · rw [written]
    exact ⟨rfl, rfl, rfl⟩
  · rw [written]
    exact get?_set _ _ _ _ (ne_nil_of_not_folder leaf)
  · intro v isV
    rw [Option.some.inj (isV.symm.trans is)]

/-- The first finish of a file moves it to its destination or removes it. -/
theorem on_finish {f : AtomicFile} {content : Bytes} (open_ : f.done = false)
    (there : g.look f.temp = .ok (.file content false)) (how : Finish) :
    (f.finish how).on g =
        (.ok ({ f with done := true }, .ok ()),
          { g with
            tree := (g.tree.erase (g.locate f.temp)).set (g.locate f.dest) (.file content false) }) ∧
        how = .commit ∧ g.look f.dest ≠ .ok .folder ∧ g.admits f.dest = .ok () ∨
      ∃ outcome, (f.finish how).on g =
        (.ok ({ f with done := true }, outcome),
          { g with tree := g.tree.erase (g.locate f.temp) }) ∧
        (how = .commit → outcome.isOk = false) := by
  have removed := on_removeFile there
  cases how with
  | abort =>
      refine .inr ⟨.ok (), ?_, nofun⟩
      simp only [finish, open_, on_bind, removed]
      rfl
  | commit =>
      have renamed := rename_yields g f.temp f.dest
      simp only [finish, open_, place, on_bind, on_attempt]
      rw [Yields, ends_iff] at renamed
      generalize (rename f.temp f.dest).on g = ended at renamed ⊢
      obtain ⟨outcome, k⟩ := ended
      cases outcome with
      | ok _ =>
          obtain ⟨node, found, notFolder, admitted, rfl⟩ := renamed
          obtain rfl := Except.ok.inj (found.symm.trans there)
          exact .inl ⟨rfl, trivial, notFolder, admitted⟩
      | error e =>
          obtain rfl : k = g := renamed
          refine .inr ⟨.error (.during (lit "atomic commit rename") e), ?_, fun _ => rfl⟩
          simp only [on_bind, removed]
          rfl

/-- A file that is finished stays as it is. -/
theorem on_finish_done {f : AtomicFile} (done : f.done = true) (g : Host) :
    (∃ e, (f.finish .commit).on g = (.ok (f, .error e), g)) ∧
      (f.finish .abort).on g = (.ok (f, .ok ()), g) := by
  constructor
  · exact ⟨_, by simp only [finish, done]; rfl⟩
  · simp only [finish, done]
    rfl

/-- The temporary file goes away. -/
theorem Fits.remove (fits : Fits wanted h ws g) {i : ι} {w : Writer} (is : ws.writer i = some w)
    (open_ : w.file.done = false) (d : Location) :
    Fits wanted h (ws.set i { w with file := { w.file with done := true } })
        { g with tree := g.tree.erase (h.locate w.file.temp) } ∧
      Touches d (· = h.locate w.file.temp) g.tree (g.tree.erase (h.locate w.file.temp)) := by
  have own := fits.each i w is
  obtain ⟨-, here, -⟩ := fits.temporary is open_
  have leaf : g.tree.get? (h.locate w.file.temp) ≠ some .folder := by simp [here]
  have tree := fun l => get?_erase g.tree (h.locate w.file.temp) l (ne_nil_of_not_folder leaf)
  have same : ∀ l, l ≠ h.locate w.file.temp →
      (g.tree.erase (h.locate w.file.temp)).get? l = g.tree.get? l :=
    fun l other => (tree l).trans (if_neg other)
  constructor
  · refine fits.change (sound_of_erase fits.sound leaf) ⟨rfl, rfl, rfl⟩
      ⟨own.dest, own.notWanted, own.named, nofun⟩ (fun v isV => ?_)
      (fun j v is' other openV => fits.apart j i v w is' is other openV open_)
      (fun _ => content?_of_none ((tree _).trans (if_pos rfl))) (fun l other _ => .inl (same l other))
      fun l isWanted => ?_
    · rw [Option.some.inj (isV.symm.trans is)]
    · have other : l ≠ h.locate w.file.temp := fun e => own.notWanted (e ▸ isWanted)
      exact (content?_congr (same l other)).trans (fits.content l isWanted)
  · intro l
    by_cases other : l = h.locate w.file.temp
    · exact .inl other
    · exact .inr (.inl (same l other))

/-- The temporary file becomes the file at the destination. -/
theorem Fits.move (fits : Fits wanted h ws g) {i : ι} {w : Writer} (is : ws.writer i = some w)
    (open_ : w.file.done = false) (notFolder : g.look w.file.dest ≠ .ok .folder)
    (admitted : g.admits w.file.dest = .ok ()) (d : Location)
    (moved : k = { g with
      tree := (g.tree.erase (h.locate w.file.temp)).set (h.locate w.file.dest)
        (.file w.written false) }) :
    Fits wanted h (ws.finish i w { w.file with done := true } (h.locate w.file.dest) .commit (.ok ()))
        k ∧
      Touches d (fun l => l = h.locate w.file.temp ∨ l = h.locate w.file.dest) g.tree k.tree ∧
      k.look w.file.dest = .ok (.file w.written false) := by
  have own := fits.each i w is
  obtain ⟨-, here, -⟩ := fits.temporary is open_
  obtain ⟨flaw, parent, short⟩ := admits_eq_ok fits.sound admitted
  rw [fits.locate] at parent short
  have leaf : g.tree.get? (h.locate w.file.temp) ≠ some .folder := by simp [here]
  have apart : h.locate w.file.dest ≠ h.locate w.file.temp := fun e => own.notWanted (e ▸ own.dest)
  have erased := fun l => get?_erase g.tree (h.locate w.file.temp) l (ne_nil_of_not_folder leaf)
  have noFolder : g.tree.get? (h.locate w.file.dest) ≠ some .folder := fun isFolder =>
    notFolder ((look_eq_ok_iff fits.sound).mpr ⟨flaw, by rwa [fits.locate], by rwa [fits.locate]⟩)
  have tree : ∀ l, k.tree.get? l =
      if l = h.locate w.file.dest then some (.file w.written false)
      else if l = h.locate w.file.temp then none else g.tree.get? l := by
    intro l
    rw [moved]
    exact (get?_set _ _ _ _ (ne_nil_of_not_folder noFolder)).trans (by rw [erased])
  have folder : (g.tree.erase (h.locate w.file.temp)).get? (h.locate w.file.dest).dropLast =
      some .folder := by
    have other : (h.locate w.file.dest).dropLast ≠ h.locate w.file.temp := fun e => by
      rw [e, here] at parent
      cases parent
    rw [erased, if_neg other]
    exact parent
  have sound : k.Sound := by
    rw [moved]
    exact sound_of_set (sound_of_erase fits.sound leaf) folder
      (((erased _).trans (if_neg apart)).trans_ne noFolder)
  have setting : SameSetting g k := by
    rw [moved]
    exact ⟨rfl, rfl, rfl⟩
  have same : ∀ l, l ≠ h.locate w.file.temp → l ≠ h.locate w.file.dest →
      k.tree.get? l = g.tree.get? l :=
    fun l other other' => (tree l).trans (by rw [if_neg other', if_neg other])
  refine ⟨?_, fun l => ?_, ?_⟩
  · refine fits.change sound setting ⟨own.dest, own.notWanted, own.named, nofun⟩ (fun v isV => ?_)
      (fun j v is' other openV => fits.apart j i v w is' is other openV open_)
      (fun _ => content?_of_none ((tree _).trans (by rw [if_neg apart.symm, if_pos rfl])))
      (fun l other notWanted => .inl (same l other fun e => notWanted (e ▸ own.dest)))
      fun l isWanted => ?_
    · rw [Option.some.inj (isV.symm.trans is)]
    · show k.tree.content? l =
        ((((h.locate w.file.dest, w.written) :: ws.commits).find? fun commit => commit.1 == l).map
          Prod.snd).or _
      by_cases isDest : l = h.locate w.file.dest
      · rw [content?_of_get? ((tree l).trans (if_pos isDest)), List.find?_cons_of_pos (by simp [isDest])]
        rfl
      · rw [content?_congr (same l (fun e => own.notWanted (e ▸ isWanted)) isDest),
          List.find?_cons_of_neg (by simpa using Ne.symm isDest)]
        exact fits.content l isWanted
  · by_cases here : l = h.locate w.file.temp ∨ l = h.locate w.file.dest
    · exact .inl here
    · obtain ⟨other, other'⟩ := not_or.mp here
      exact .inr (.inl (same l other other'))
  · rw [look_eq_ok_iff sound, locate_of_folder setting.folder, fits.locate, tree, if_pos rfl]
    exact ⟨flaw, rfl, short⟩

/-- However a file is finished: unless it is committed, at most its temporary file goes away; if it is,
it is at its destination. -/
theorem Fits.finish (fits : Fits wanted h ws g) {i : ι} {w : Writer} {how : Finish} {f : AtomicFile}
    {outcome : Except Fault Unit} (is : ws.writer i = some w)
    (ended : (w.file.finish how).on g = (.ok (f, outcome), k)) (d : Location) :
    Fits wanted h (ws.finish i w f (g.locate w.file.dest) how outcome) k ∧
      (how = .commit ∧ outcome = .ok () ∧
          Touches d (fun l => l = h.locate w.file.temp ∨ l = h.locate w.file.dest) g.tree k.tree ∧
          k.look w.file.dest = .ok (.file w.written false) ∨
        (how = .commit → outcome.isOk = false) ∧
          Touches d (· = h.locate w.file.temp) g.tree k.tree) := by
  cases done : w.file.done with
  | true =>
      obtain ⟨⟨e, commit⟩, abort⟩ := on_finish_done done g
      cases how with
      | commit =>
          rw [commit] at ended
          cases ended
          have same : ws.finish i w w.file (g.locate w.file.dest) .commit (.error e) = ws :=
            Writers.set_same is
          exact ⟨by rwa [same], .inr ⟨fun _ => rfl, .refl _ _ _⟩⟩
      | abort =>
          rw [abort] at ended
          cases ended
          have same : ws.finish i w w.file (g.locate w.file.dest) .abort (.ok ()) = ws :=
            Writers.set_same is
          exact ⟨by rwa [same], .inr ⟨nofun, .refl _ _ _⟩⟩
  | false =>
      rcases on_finish done ((fits.each i w is).writing done) how with
        ⟨committed, rfl, notFolder, admitted⟩ | ⟨outcome', removed, failed⟩
      · rw [committed, fits.locate, fits.locate] at ended
        cases ended
        rw [fits.locate]
        obtain ⟨fits, touches, there⟩ := fits.move is done notFolder admitted d rfl
        exact ⟨fits, .inl ⟨rfl, rfl, touches, there⟩⟩
      · rw [removed, fits.locate] at ended
        cases ended
        obtain ⟨gone, touches⟩ := fits.remove is done d
        refine ⟨?_, .inr ⟨failed, touches⟩⟩
        cases how with
        | abort => exact gone
        | commit =>
            cases outcome with
            | ok _ => cases failed rfl
            | error e => exact gone

/-- Every step keeps what writers have made of the host. -/
theorem Fits.step {ws' : Writers ι} (fits : Fits wanted h ws g)
    (step : Step wanted (ws, g) (ws', k)) : Fits wanted h ws' k := by
  cases step with
  | create free _ isWanted created notWanted =>
      exact (fits.create free isWanted created notWanted).1
  | createFails failed =>
      have base := (create_temporary fits.sound _).of_error failed
      exact fits.stay base.sound base.toSameSetting base.tree.stays
  | folders made =>
      rename_i dest r
      have folders := makeFolders_ends fits.sound (splitLast dest).1
      rw [← dir, ends_iff, made] at folders
      exact fits.stay folders.sound folders.toSameSetting folders.tree.stays
  | write is _ open_ wrote => exact (fits.write is open_ wrote []).1
  | writeFails is _ open_ failed =>
      obtain rfl := (append_yields ((fits.each _ _ is).writing open_) _).of_error failed
      exact fits
  | finish is _ ended => exact (fits.finish is ended []).1
  | crash i => exact ⟨fits.setting, fits.sound, fits.each, fits.apart, fits.finished, fits.content⟩
  | read quiet =>
      exact fits.stay (quiet.sound fits.sound) quiet.toSameSetting fun l => .inl (by rw [quiet.tree])

/-- Whatever writers do, in any order. -/
theorem fits_of_steps (sound : h.Sound) {ended : Writers ι × Host}
    (steps : Relation.ReflTransGen (Step wanted) ({}, h) ended) : Fits wanted h ended.1 ended.2 := by
  induction steps with
  | refl => exact .begin sound
  | tail _ step ih => exact ih.step step

/-! ## Whole writes as steps -/

/-- From `g` to `k` a new writer comes by steps; `commits` is what it commits to `dest`. -/
def Stepwise (wanted : Location → Prop) (ws : Writers ι) (g : Host) (dest : Bytes)
    (commits : List (Location × Bytes)) (k : Host) : Prop :=
  ∀ i, ws.writer i = none → i ∉ ws.crashed → wanted (g.locate dest) →
    (∀ f m, (AtomicFile.create dest).on g = (.ok f, m) → ¬wanted (g.locate f.temp)) →
    ∃ ws', Relation.ReflTransGen (Step wanted) (ws, g) (ws', k) ∧
      (∀ j, j ≠ i → ws'.writer j = ws.writer j) ∧ ws'.commits = commits ++ ws.commits

/-- What is committed by a write that ended so. -/
def committed {α : Type} (l : Location) (data : Bytes) : Except Fault α → List (Location × Bytes)
  | .ok _ => [(l, data)]
  | .error _ => []

/-- However a file is finished, it comes to a handle. -/
theorem finish_ok (f : AtomicFile) (how : Finish) (g : Host) :
    ∃ file outcome k, (f.finish how).on g = (.ok (file, outcome), k) := by
  cases done : f.done with
  | true =>
      obtain ⟨⟨e, commit⟩, abort⟩ := on_finish_done done g
      cases how with
      | commit => exact ⟨f, _, g, commit⟩
      | abort => exact ⟨f, _, g, abort⟩
  | false =>
      cases how with
      | abort => exact ⟨_, _, _, by simp only [finish, done]; rfl⟩
      | commit =>
          simp only [finish, done, place, on_bind, on_attempt]
          cases (rename f.temp f.dest).on g with
          | mk outcome k => cases outcome <;> exact ⟨_, _, _, rfl⟩

/-- The ways in which replacing the file at `dest` can go. -/
inductive Replaces (dest data : Bytes) (g : Host) : Except Fault Unit → Host → Prop
  | unbegun {e e' : Fault} {k : Host} :
      (AtomicFile.create dest).on g = (.error e, k) → Replaces dest data g (.error e') k
  | unwritten {f file : AtomicFile} {m m' k : Host} {e e' : Fault} {outcome : Except Fault Unit} :
      (AtomicFile.create dest).on g = (.ok f, m) → (f.write data).on m = (.error e, m') →
      (f.finish .abort).on m' = (.ok (file, outcome), k) → Replaces dest data g (.error e') k
  | finished {f file : AtomicFile} {m m' k : Host} {outcome : Except Fault Unit} :
      (AtomicFile.create dest).on g = (.ok f, m) → (f.write data).on m = (.ok (), m') →
      (f.finish .commit).on m' = (.ok (file, outcome), k) → Replaces dest data g outcome k

theorem replaces_of_writeAll {dest data : Bytes} {r : Except Fault Unit}
    (ended : (writeAll dest data).on g = (r, k)) : Replaces dest data g r k := by
  rw [writeAll, writing, on_bind] at ended
  cases created : (AtomicFile.create dest).on g with
  | mk outcome m =>
      rw [created] at ended
      cases outcome with
      | error e =>
          cases ended
          exact .unbegun created
      | ok f =>
          dsimp only at ended
          rw [on_bind, on_attempt, on_during] at ended
          cases wrote : (f.write data).on m with
          | mk outcome m' =>
              rw [wrote] at ended
              cases outcome with
              | error e =>
                  obtain ⟨file, outcome, m'', finished⟩ := finish_ok f .abort m'
                  simp only [Except.mapError, on_bind, on_discard, finished, Except.map,
                    on_throw] at ended
                  cases ended
                  exact .unwritten created wrote finished
              | ok _ =>
                  obtain ⟨file, outcome, m'', finished⟩ := finish_ok f .commit m'
                  simp only [Except.mapError, commit, on_bind, finished, on_ofExcept] at ended
                  cases outcome <;> cases ended <;> exact .finished created wrote finished

/-- Replacing a file's content is done by steps. -/
theorem writeAll_stepwise (fits : Fits wanted h ws g) {dest data : Bytes} {r : Except Fault Unit}
    (ended : (writeAll dest data).on g = (r, k)) :
    Stepwise wanted ws g dest (committed (g.locate dest) data r) k := by
  intro i free going isWanted notWanted
  cases replaces_of_writeAll ended with
  | unbegun failed => exact ⟨ws, .single (.createFails failed), fun _ _ => rfl, rfl⟩
  | unwritten created failed finished =>
      rename_i f _ m m' _ _ _
      obtain ⟨rfl, open_, -⟩ := (create_temporary fits.sound dest).of_ok created
      have begun := Step.create free going isWanted created (notWanted f m created)
      have failed : Step wanted (ws.set i { file := f }, m) (_, m') :=
        .writeFails (ws.set_self i { file := f }) going open_ failed
      have aborted : Step wanted (ws.set i { file := f }, m') (_, k) :=
        .finish (ws.set_self i { file := f }) going finished
      refine ⟨_, .tail (.tail (.single begun) failed) aborted, fun j other => ?_, rfl⟩
      rw [Writers.finish_other _ _ _ _ _ _ other, Writers.set_other _ _ other]
  | finished created wrote finished =>
      rename_i f file m m'
      obtain ⟨rfl, open_, -⟩ := (create_temporary fits.sound dest).of_ok created
      have begun := Step.create free going isWanted created (notWanted f m created)
      have written : Step wanted (ws.set i { file := f }, m) (_, m') :=
        .write (ws.set_self i { file := f }) going open_ wrote
      have done : Step wanted (_, m') (_, k) :=
        .finish (Writers.set_self (ws.set i { file := f }) i { file := f, written := data }) going
          finished
      have same : m'.locate f.dest = g.locate f.dest := by
        rw [((fits.step begun).step written).locate, fits.locate]
      rw [← same]
      refine ⟨_, .tail (.tail (.single begun) written) done, fun j other => ?_, ?_⟩
      · rw [Writers.finish_other _ _ _ _ _ _ other, Writers.set_other _ _ other,
          Writers.set_other _ _ other]
      · cases r <;> rfl

theorem Stepwise.none (wanted : Location → Prop) (ws : Writers ι) (g : Host) (dest : Bytes) :
    Stepwise wanted ws g dest [] g :=
  fun _ _ _ _ _ => ⟨ws, .refl, fun _ _ => rfl, rfl⟩

theorem create_stepwise {dest : Bytes} {r : Except Fault AtomicFile}
    (ended : (AtomicFile.create dest).on g = (r, k)) : Stepwise wanted ws g dest [] k := by
  intro i free going isWanted notWanted
  cases r with
  | error e => exact ⟨ws, .single (.createFails ended), fun _ _ => rfl, rfl⟩
  | ok f =>
      exact ⟨_, .single (.create free going isWanted ended (notWanted f k ended)),
        fun j other => ws.set_other _ other, rfl⟩

end

end AtomicFile

namespace ObjectStore

open AtomicFile (Writers Fits Stepwise Step)

variable {ι : Type} [DecidableEq ι] {wanted : Location → Prop} {h g k : Host} {ws : Writers ι}

/-- What is committed by a write to a store that ended so. -/
def committed (l : Location) (data : Bytes) : Except Fault Bool → List (Location × Bytes)
  | .ok true => [(l, data)]
  | _ => []

theorem on_checkId (verb : String) (id : Bytes) (g : Host) :
    (ObjectId.isValid id = true ∧ (checkId verb id).on g = (.ok (), g)) ∨
      ∃ e, (checkId verb id).on g = (.error e, g) := by
  cases valid : ObjectId.isValid id with
  | true => exact .inl ⟨rfl, on_checkId_of_isValid valid verb g⟩
  | false => exact .inr ⟨_, by rw [checkId, on_during, on_ofExcept, ObjectId.validate, valid]; rfl⟩

/-- Storing a content is done by steps. -/
theorem write_stepwise (fits : Fits wanted h ws g) {s : ObjectStore} {id data : Bytes}
    {r : Except Fault Bool} (ended : (s.write id data).on g = (r, k)) :
    Stepwise wanted ws g (s.path id) (committed (g.locate (s.path id)) data r) k := by
  rw [write, on_bind] at ended
  rcases on_checkId "write" id g with ⟨-, checked⟩ | ⟨e, checked⟩
  · rw [checked] at ended
    simp only [on_bind, has, on_isThere] at ended
    cases there : (g.look (s.path id)).isOk with
    | true =>
        rw [there] at ended
        cases ended
        exact .none wanted ws g _
    | false =>
        rw [there] at ended
        simp only [Bool.false_eq_true, if_false, on_bind, on_during] at ended
        cases written : (AtomicFile.writeAll (s.path id) data).on g with
        | mk outcome m =>
            have steps := AtomicFile.writeAll_stepwise fits written
            rw [written] at ended
            cases outcome <;> cases ended <;> exact steps
  · rw [checked] at ended
    cases ended
    exact .none wanted ws g _

/-- Beginning a file for an id is done by steps. -/
theorem create_stepwise {s : ObjectStore} {id : Bytes} {r : Except Fault AtomicFile}
    (ended : (s.create id).on g = (r, k)) : Stepwise wanted ws g (s.path id) [] k := by
  rw [create, on_bind] at ended
  rcases on_checkId "create" id g with ⟨-, checked⟩ | ⟨e, checked⟩
  · rw [checked] at ended
    exact AtomicFile.create_stepwise ended
  · rw [checked] at ended
    cases ended
    exact .none wanted ws g _

/-- What is listed are ids. -/
theorem list_valid (s : ObjectStore) (h : Host) :
    s.list.Yields h (fun ids _ => ∀ id ∈ ids, ObjectId.isValid id = true) fun _ => True := by
  rw [list]
  refine Yields.bind (yields_attempt ⟨trivial⟩ : Yields _ h (fun _ _ => True) _) ?_
  intro outcome g _
  cases outcome with
  | ok entries =>
      refine ⟨fun id member => ?_⟩
      rw [Bytes.sort, (List.mergeSort_perm _ _).mem_iff] at member
      exact (List.mem_filter.mp member).2
  | error f =>
      dsimp only
      split
      · exact ⟨nofun⟩
      · exact ⟨trivial⟩

/-- No id is the name of a temporary file. -/
theorem path_ne_temporary {s : ObjectStore} {id : Bytes} (valid : ObjectId.isValid id = true)
    (h : Host) (d : Location) (n : Nat) :
    h.locate (s.path id) ≠ d ++ [AtomicFile.stem ++ Decimal.ofNat n] := by
  intro same
  rw [path, h.locate_join s.folder (ObjectId.isName_of_isValid valid)] at same
  obtain ⟨-, same⟩ := List.append_inj' same rfl
  rw [(List.cons.inj same).1, ObjectId.isValid, Bool.and_eq_true, List.all_eq_true] at valid
  have dot : (46 : UInt8) ∈ AtomicFile.stem ++ Decimal.ofNat n := List.mem_append_left _ (by decide)
  exact absurd (valid.2 46 dot) (by decide)

end ObjectStore

namespace AtomicFile

variable {ι : Type} [DecidableEq ι] {wanted : Location → Prop} {h g : Host} {ws : Writers ι}

/-- Whatever writers do side by side, wherever they stop and whoever reads meanwhile: a destination
holds what was committed to it last, or what it held at first, and that is what a reader gets.  Only
the first finish of a file has an effect, and a later commit fails.  A file that is finished has no
temporary file, unless its name was given to another writer since.  A store lists no temporary file.
Files that are replaced as a whole and contents that are stored are written by such steps. -/
theorem committed_or_initial (sound : h.Sound)
    (steps : Relation.ReflTransGen (Step wanted) ({}, h) (ws, g)) :
    (∀ l, wanted l → g.tree.content? l = (ws.last? l).or (h.tree.content? l)) ∧
    (∀ p data, wanted (g.locate p) → ((readFile p).on g).1 = .ok data →
      (ws.last? (g.locate p)).or (h.tree.content? (g.locate p)) = some data) ∧
    (∀ i w how, ws.writer i = some w →
      ∃ f outcome k, (w.file.finish how).on g = (.ok (f, outcome), k) ∧ f.done = true ∧
        (w.file.done = true → f = w.file ∧ k = g ∧ (outcome.isOk = true ↔ how = .abort))) ∧
    (∀ i w, ws.writer i = some w → w.file.done = true →
      (∀ j v, ws.writer j = some v → v.file.done = false →
        g.locate v.file.temp ≠ g.locate w.file.temp) →
      g.tree.content? (g.locate w.file.temp) = none) ∧
    (∀ (s : ObjectStore) ids, (s.list.on g).1 = .ok ids →
      ∀ id ∈ ids, ∀ i w, ws.writer i = some w → g.locate (s.path id) ≠ g.locate w.file.temp) ∧
    (∀ dest data r k, (writeAll dest data).on g = (r, k) →
      Stepwise wanted ws g dest (committed (g.locate dest) data r) k) ∧
    (∀ (s : ObjectStore) id data r k, (s.write id data).on g = (r, k) →
      Stepwise wanted ws g (s.path id) (ObjectStore.committed (g.locate (s.path id)) data r) k) ∧
    ∀ (s : ObjectStore) id r k, (s.create id).on g = (r, k) → Stepwise wanted ws g (s.path id) [] k := by
  have fits : Fits wanted h ws g := fits_of_steps sound steps
  refine ⟨fits.content, fun p data isWanted read => ?_, fun i w how is => ?_,
    fun i w is done unused => ?_, fun s ids listed id member i w is => ?_,
    fun _ _ _ _ => writeAll_stepwise fits, fun _ _ _ _ _ => ObjectStore.write_stepwise fits,
    fun _ _ _ _ => ObjectStore.create_stepwise⟩
  · have found := (readFile_ends g p).holds
    rw [read] at found
    rw [← fits.content _ isWanted]
    exact content?_of_contentAt? fits.sound found.2
  · cases done : w.file.done with
    | true =>
        obtain ⟨⟨e, commit⟩, abort⟩ := on_finish_done done g
        cases how with
        | commit => exact ⟨_, _, _, commit, done, fun _ => ⟨rfl, rfl, nofun, nofun⟩⟩
        | abort => exact ⟨_, _, _, abort, done, fun _ => ⟨rfl, rfl, fun _ => rfl, fun _ => rfl⟩⟩
    | false =>
        rcases on_finish done ((fits.each i w is).writing done) how with
          ⟨ended, -⟩ | ⟨outcome, ended, -⟩
        · exact ⟨_, _, _, ended, rfl, nofun⟩
        · exact ⟨_, _, _, ended, rfl, nofun⟩
  · simp only [fits.locate] at unused ⊢
    exact fits.finished i w is done unused
  · obtain ⟨k, listed⟩ := exists_on_of_ok listed
    obtain ⟨n, named⟩ := (fits.each i w is).named
    rw [fits.locate w.file.temp, named]
    exact ObjectStore.path_ne_temporary ((s.list_valid g).of_ok listed id member) g _ n

def deskHost : Host := { tree := ⟨[([lit "s"], .folder)]⟩ }

/-- What two who write to `/s/a` have when they have begun. -/
def firstDraft : AtomicFile := ⟨lit "/s/.tmp-1", lit "/s/a", false⟩

def secondDraft : AtomicFile := ⟨lit "/s/.tmp-2", lit "/s/a", false⟩

/-- Two write to one destination.  The one who began last commits and stops; the one who began first
commits later, and then tries to commit again. -/
theorem committed_or_initial_twice :
    ∃ (ws : Writers Nat) (g : Host),
      Relation.ReflTransGen (Step (· = [lit "s", lit "a"])) ({}, deskHost) (ws, g) ∧
        ws.commits.map Prod.snd = [lit "one", lit "two"] ∧ ws.crashed = [1] ∧
        g.tree.content? [lit "s", lit "a"] = some (lit "one") ∧
        g.tree.content? (g.locate firstDraft.temp) = none := by
  have sound : deskHost.Sound := by decide +kernel
  have steps : Relation.ReflTransGen (Step (· = [lit "s", lit "a"]))
      (({} : Writers Nat), deskHost) (_, _) :=
    .single (.create (i := 0) rfl nofun (by decide +kernel)
      (on_eq_of_ok (by decide +kernel : ((create (lit "/s/a")).on _).1 = .ok firstDraft))
      (by decide +kernel))
  have steps := steps.tail (.write (i := 0) rfl nofun rfl
    (on_eq_of_ok (by decide +kernel : ((firstDraft.write (lit "one")).on _).1 = .ok ())))
  have steps := steps.tail (.create (i := 1) rfl nofun (by decide +kernel)
    (on_eq_of_ok (by decide +kernel : ((create (lit "/s/a")).on _).1 = .ok secondDraft))
    (by decide +kernel))
  have steps := steps.tail (.write (i := 1) rfl nofun rfl
    (on_eq_of_ok (by decide +kernel : ((secondDraft.write (lit "two")).on _).1 = .ok ())))
  have steps := steps.tail (.finish (i := 1) rfl nofun (on_eq_of_ok (by decide +kernel :
    ((secondDraft.finish .commit).on _).1 = .ok ({ secondDraft with done := true }, .ok ()))))
  have steps := steps.tail (.crash 1)
  have steps := steps.tail (.finish (i := 0) rfl (by decide) (on_eq_of_ok (by decide +kernel :
    ((firstDraft.finish .commit).on _).1 = .ok ({ firstDraft with done := true }, .ok ()))))
  have steps := steps.tail (.finish (i := 0) rfl (by decide) (on_eq_of_ok (by decide +kernel :
    (({ firstDraft with done := true }.finish .commit).on _).1 =
      .ok ({ firstDraft with done := true },
        .error (.other (lit "atomic commit /s/a: already finished"))))))
  obtain ⟨content, -, -, finished, -⟩ := committed_or_initial sound steps
  refine ⟨_, _, steps, rfl, rfl, content _ rfl, finished 0 _ rfl rfl fun j v is open_ => ?_⟩
  -- Nobody is writing any more.
  match j, is with
  | 0, is | 1, is =>
    cases is
    cases open_
  | _ + 2, is => cases is

end AtomicFile

end SymbolHistory
