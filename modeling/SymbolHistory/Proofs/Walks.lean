/-
# Proofs.Walks -- what visiting the files of a tag comes to

A walk lists the files of a tag and then visits them one after another
(`Source.walk_eq`).  Visits that each take a state to the next are a fold over
the files, unless one of them fails (`visitEntries_yields`).

A source is `Steady` on some hosts when listing a tag changes none of them and
always gives the same answer, or else fails for a reason that says nothing about
the tag.  A source that is kept in memory is steady on all hosts.  It is `Fixed`,
too: it has the same tags whenever it is asked.
-/
import SymbolHistory.Comparison
import SymbolHistory.Proofs.Work

set_option autoImplicit false

namespace SymbolHistory

open Run Host

theorem checkpoint_ends (h : Host) :
    checkpoint.Ends h fun r g => Quiet h g ∧ ∀ e, r = .error e → e = .canceled := by
  refine ⟨checkpoint_quiet h, fun e failed => ?_⟩
  simp only [checkpoint, on_bind, on_get] at failed
  split at failed
  · cases failed
  · cases failed
    rfl
  · cases failed

/-- Visits that come to `f` are a fold of `f` over the files before the first that fails; only a
fault that is `bad` stops them. -/
theorem visitEntries_yields {σ : Type} {visit : σ → FileEntry → Run σ} {f : σ → FileEntry → σ}
    {J : Host → Prop} {bad : Fault → Prop} (quiet : ∀ {h g}, J h → Quiet h g → J g)
    (canceled : bad .canceled)
    (each : ∀ s e h, J h → (visit s e).Ends h fun r g =>
      J g ∧ (∀ s', r = .ok s' → s' = f s e) ∧ ∀ e, r = .error e → bad e) :
    ∀ (entries : List FileEntry) (s : σ) {h : Host}, J h →
      (visitEntries visit s entries).Yields h
        (fun r g => J g ∧ (∃ part, r.1 = part.foldl f s ∧ (r.2 = none → part = entries)) ∧
          ∀ e, r.2 = some e → bad e)
        (fun _ => False) := by
  intro entries
  induction entries with
  | nil => exact fun s h good => ⟨good, ⟨[], rfl, fun _ => rfl⟩, by simp⟩
  | cons entry rest ih =>
      intro s h good
      have visited : (checkpoint >>= fun _ => visit s entry).Ends h fun r g =>
          J g ∧ (∀ s', r = .ok s' → s' = f s entry) ∧ ∀ e, r = .error e → bad e := by
        refine (checkpoint_ends h).bind (fun _ g passed => ?_) fun e g stopped => ?_
        · exact each s entry g (quiet good passed.1)
        · refine ⟨quiet good stopped.1, by simp, fun e' same => ?_⟩
          cases same
          rw [stopped.2 e rfl]
          exact canceled
      rw [visitEntries]
      refine (yields_attempt visited).bind fun outcome g ended => ?_
      cases outcome with
      | ok s' =>
          refine (ih s' ended.1).mono ?_ fun _ never => never
          rintro r k ⟨good, ⟨part, folded, whole⟩, cause⟩
          refine ⟨good, ⟨entry :: part, ?_, fun done => by rw [whole done]⟩, cause⟩
          rw [folded, List.foldl_cons, ended.2.1 s' rfl]
      | error e =>
          refine ⟨ended.1, ⟨[], rfl, by simp⟩, fun e' same => ?_⟩
          cases same
          exact ended.2.2 e rfl

namespace Source

/-- The files of a tag in order, and what went wrong after them. -/
def listing : Source → Tag → Run (List FileEntry × Option Fault)
  | memory m, tag =>
    match m.entries tag with
    | .error f => pure ([], some f)
    | .ok entries => pure (entries, none)
  | git g, tag => do
    match ← Run.attempt (g.files tag) with
    | .error f => pure ([], some f)
    | .ok answer => pure answer

/-- A walk lists the files and then visits them. -/
theorem walk_eq {σ : Type} (source : Source) (tag : Tag) (s : σ)
    (visit : σ → FileEntry → Run σ) :
    source.walk tag s visit =
      source.listing tag >>= fun answer =>
        visitEntries visit s answer.1 >>= fun ended => pure (ended.1, ended.2.or answer.2) := by
  cases source with
  | memory m =>
      simp only [walk, listing]
      cases m.entries tag with
      | error f => simp [visitEntries]
      | ok entries => simp
  | git g =>
      simp only [walk, listing, bind_assoc]
      congr 1
      funext outcome
      cases outcome with
      | error f => simp [visitEntries]
      | ok answer => simp

/-- On the hosts that are `usual`, listing a tag changes nothing and answers what is `known`, or
fails for a reason that says nothing about the tag. -/
def Steady (source : Source) (usual : Host → Prop)
    (known : Tag → List FileEntry × Option Fault) : Prop :=
  ∀ tag h, usual h → (source.listing tag).Yields h
    (fun answer g => Quiet h g ∧
      (answer = known tag ∨ ∃ f, answer.2 = some f ∧ f.isUnresolvable = false))
    (Quiet h)

theorem Steady.mono {source : Source} {usual usual' : Host → Prop}
    {known : Tag → List FileEntry × Option Fault} (steady : source.Steady usual known)
    (implies : ∀ {h}, usual' h → usual h) : source.Steady usual' known :=
  fun tag h isUsual => steady tag h (implies isUsual)

/-- A source that always has the tags `all` with the files that are `known`, and that changes
nothing when it is read. -/
structure Fixed (source : Source) (usual : Host → Prop) (all : List Tag)
    (known : Tag → List FileEntry × Option Fault) : Prop where
  tags : ∀ h, usual h → source.tags.Yields h (fun tags g => Quiet h g ∧ tags = all) (Quiet h)
  steady : source.Steady usual known
  blobs : ∀ h, usual h → source.openBlobs.Yields h (fun _ => Quiet h) (Quiet h)

theorem Fixed.mono {source : Source} {usual usual' : Host → Prop} {all : List Tag}
    {known : Tag → List FileEntry × Option Fault} (fixed : source.Fixed usual all known)
    (implies : ∀ {h}, usual' h → usual h) : source.Fixed usual' all known where
  tags h isUsual := fixed.tags h (implies isUsual)
  steady := fixed.steady.mono implies
  blobs h isUsual := fixed.blobs h (implies isUsual)

def answer (m : MemorySource) (tag : Tag) : List FileEntry × Option Fault :=
  match m.entries tag with
  | .error f => ([], some f)
  | .ok entries => (entries, none)

theorem memory_steady (m : MemorySource) (usual : Host → Prop) :
    (memory m).Steady usual (answer m) := by
  intro tag h _
  have listed : (memory m).listing tag = pure (answer m tag) := by
    simp only [listing, answer]
    cases m.entries tag <;> rfl
  rw [listed, yields_pure]
  exact ⟨quiet_lasting.refl h, .inl rfl⟩

theorem memory_fixed (m : MemorySource) (usual : Host → Prop) :
    (memory m).Fixed usual m.tags (answer m) where
  tags h _ := (yields_pure _ _ _ _).mpr ⟨quiet_lasting.refl h, rfl⟩
  steady := memory_steady m usual
  blobs h _ := (yields_pure _ _ _ _).mpr (quiet_lasting.refl h)

/-- A walk of a steady source comes to a fold over all files that are known, and fails for what is
known to be wrong after them; or it is stopped, for a reason that says nothing about the tag. -/
theorem walk_yields {σ : Type} {source : Source} {usual J : Host → Prop}
    {known : Tag → List FileEntry × Option Fault} (steady : source.Steady usual known)
    {visit : σ → FileEntry → Run σ} {f : σ → FileEntry → σ} (bad : Fault → Prop)
    (isUsual : ∀ {h}, J h → usual h) (quiet : ∀ {h g}, J h → Quiet h g → J g)
    (canceled : bad .canceled)
    (each : ∀ s e h, J h → (visit s e).Ends h fun r g =>
      J g ∧ (∀ s', r = .ok s' → s' = f s e) ∧ ∀ e, r = .error e → bad e)
    (tag : Tag) (s : σ) {h : Host} (good : J h) :
    (source.walk tag s visit).Yields h
      (fun r g => J g ∧
        (r.1 = (known tag).1.foldl f s ∧ r.2 = (known tag).2 ∨
          (∃ part : List FileEntry, r.1 = part.foldl f s) ∧
            ∃ e, r.2 = some e ∧ (bad e ∨ e.isUnresolvable = false)))
      J := by
  rw [walk_eq]
  refine ((steady tag h (isUsual good)).mono (fun _ _ listed => listed) ?_).bind ?_
  · exact fun g same => quiet good same
  · rintro answer g ⟨same, heard⟩
    refine ((visitEntries_yields quiet canceled each answer.1 s (quiet good same)).mono
      (fun _ _ ended => ended) fun _ never => never.elim).bind ?_
    rintro ⟨s', stopped⟩ k ⟨good', ⟨part, folded, whole⟩, cause⟩
    rw [yields_pure]
    refine ⟨good', ?_⟩
    cases stopped with
    | some e => exact .inr ⟨⟨part, folded⟩, e, rfl, .inl (cause e rfl)⟩
    | none =>
        obtain rfl := whole rfl
        rcases heard with rfl | ⟨e, failed, resolvable⟩
        · exact .inl ⟨folded, rfl⟩
        · exact .inr ⟨⟨_, folded⟩, e, failed, .inr resolvable⟩

end Source

namespace Walker

def source : Walker → Source
  | filtered x => x.source
  | whole s => s

/-- The files that are visited. -/
def keeps : Walker → FileEntry → Bool
  | filtered x, e => x.filter.keeps e.path
  | whole _, _ => true

theorem walk_eq {σ : Type} (w : Walker) (tag : Tag) (s : σ) (visit : σ → FileEntry → Run σ) :
    w.walk tag s visit =
      w.source.walk tag s fun s e => if w.keeps e then visit s e else pure s := by
  cases w with
  | filtered x => rfl
  | whole source => simp only [walk, keeps, if_true, Walker.source]

end Walker

end SymbolHistory
