/-
# Proofs.Work -- what work on a host comes to

Two ways to speak about a `Run`.  `work.Ends h Q` says that `work`, begun on `h`,
ends in an outcome and a host of which `Q` holds; failures count, because a
failure leaves behind what was done before it.  `work.Keeps R` says that `work`
takes every host to one that `R` relates to it, however it ends; where `R` is a
preorder this is closed under everything a `Run` is put together from
(`Keeps.bind`, `Keeps.attempt`, `Keeps.ensuring`, ...).

`Host.SameFiles` is the relation of work that reports, counts and looks at files
but changes none: it keeps the file tree and all that programs depend on.
-/
import SymbolHistory.Host

set_option autoImplicit false

namespace SymbolHistory

namespace Run

variable {α β : Type}

/-- What work comes to on a host, and the host it leaves. -/
def on (work : Run α) (h : Host) : Except Fault α × Host := work.run.run h

/-- Work begun on `h` ends as `Q` says, in success or failure. -/
structure Ends (work : Run α) (h : Host) (Q : Except Fault α → Host → Prop) : Prop where
  holds : Q (work.on h).1 (work.on h).2

theorem ends_iff {work : Run α} {h : Host} {Q : Except Fault α → Host → Prop} :
    work.Ends h Q ↔ Q (work.on h).1 (work.on h).2 := ⟨fun ends => ends.holds, fun holds => ⟨holds⟩⟩

instance decidableEnds {work : Run α} {h : Host} {Q : Except Fault α → Host → Prop}
    [Decidable (Q (work.on h).1 (work.on h).2)] : Decidable (work.Ends h Q) :=
  decidable_of_iff _ ends_iff.symm

/-! ## The pieces -/

@[simp] theorem on_pure (a : α) (h : Host) : (pure a : Run α).on h = (.ok a, h) := rfl

@[simp] theorem on_throw (f : Fault) (h : Host) : (throw f : Run α).on h = (.error f, h) := rfl

@[simp] theorem on_get (h : Host) : (get : Run Host).on h = (.ok h, h) := rfl

@[simp] theorem on_set (g h : Host) : (set g : Run Unit).on h = (.ok (), g) := rfl

@[simp] theorem on_modify (f : Host → Host) (h : Host) :
    (modify f : Run Unit).on h = (.ok (), f h) := rfl

theorem on_bind (x : Run α) (f : α → Run β) (h : Host) :
    (x >>= f).on h =
      match x.on h with
      | (.ok a, g) => (f a).on g
      | (.error e, g) => (.error e, g) := by
  simp only [on, ExceptT.run_bind, StateT.run_bind]
  generalize (x.run).run h = ended
  obtain ⟨outcome, g⟩ := ended
  cases outcome <;> rfl

theorem exists_on_of_ok {work : Run α} {h : Host} {a : α} (succeeds : (work.on h).1 = .ok a) :
    ∃ g, work.on h = (.ok a, g) := ⟨_, Prod.ext succeeds rfl⟩

theorem on_eq_of_ok {work : Run α} {h : Host} {a : α} (succeeds : (work.on h).1 = .ok a) :
    work.on h = (.ok a, (work.on h).2) := Prod.ext succeeds rfl

/-- What succeeds in two parts succeeds in each. -/
theorem on_bind_ok {x : Run α} {f : α → Run β} {h g : Host} {b : β}
    (ended : (x >>= f).on h = (.ok b, g)) :
    ∃ a k, x.on h = (.ok a, k) ∧ (f a).on k = (.ok b, g) := by
  rw [on_bind] at ended
  cases first : x.on h with
  | mk outcome k =>
      rw [first] at ended
      cases outcome with
      | ok a => exact ⟨a, k, rfl, ended⟩
      | error e => cases ended

@[simp] theorem on_attempt (work : Run α) (h : Host) :
    (attempt work).on h = (.ok (work.on h).1, (work.on h).2) := rfl

theorem on_during (activity : Bytes) (work : Run α) (h : Host) :
    (during activity work).on h = ((work.on h).1.mapError (·.within activity), (work.on h).2) := by
  simp only [on, during, ExceptT.run_mk, StateT.run_bind]
  generalize (work.run).run h = ended
  obtain ⟨outcome, g⟩ := ended
  cases outcome <;> rfl

theorem on_ensuring (work : Run α) (f : Host → Host) (h : Host) :
    (Run.ensuring work (modify f)).on h = ((work.on h).1, f (work.on h).2) := by
  rw [Run.ensuring, on_bind, on_attempt]
  generalize work.on h = ended
  obtain ⟨outcome, g⟩ := ended
  cases outcome <;> rfl

theorem on_map (f : α → β) (work : Run α) (h : Host) :
    (f <$> work).on h = ((work.on h).1.map f, (work.on h).2) := by
  rw [map_eq_pure_bind, on_bind]
  obtain ⟨outcome, g⟩ := work.on h
  cases outcome <;> rfl

theorem on_discard (work : Run α) (h : Host) :
    (discard work : Run Unit).on h = ((work.on h).1.map fun _ => (), (work.on h).2) :=
  on_map _ work h

theorem on_ofExcept (outcome : Except Fault α) (h : Host) :
    (ofExcept outcome).on h = (outcome, h) := by
  cases outcome <;> rfl

/-- Work that is not called off passes. -/
theorem on_checkpoint {h : Host} (running : h.interrupt = none) : checkpoint.on h = (.ok (), h) := by
  rw [checkpoint, on_bind, on_get]
  simp only [running]
  rfl

theorem on_filterAuxM {h : Host} {f : α → Run Bool} {p : α → Bool}
    (each : ∀ a, (f a).on h = (.ok (p a), h)) (as : List α) :
    ∀ done, (as.filterAuxM f done).on h = (.ok ((as.filter p).reverse ++ done), h) := by
  induction as with
  | nil => exact fun done => rfl
  | cons a as ih =>
      intro done
      rw [List.filterAuxM, on_bind, each]
      cases keep : p a <;> simp [ih, keep]

/-- Choosing by what can be seen on the host leaves it as it is. -/
theorem on_filterM {h : Host} {f : α → Run Bool} {p : α → Bool}
    (each : ∀ a, (f a).on h = (.ok (p a), h)) (as : List α) :
    (as.filterM f).on h = (.ok (as.filter p), h) := by
  rw [List.filterM, on_bind, on_filterAuxM each]
  simp

/-! ## Endings -/

theorem Ends.mono {work : Run α} {h : Host} {P Q : Except Fault α → Host → Prop}
    (ends : work.Ends h P) (implies : ∀ r g, P r g → Q r g) : work.Ends h Q :=
  ⟨implies _ _ ends.holds⟩

theorem Ends.and {work : Run α} {h : Host} {P Q : Except Fault α → Host → Prop}
    (left : work.Ends h P) (right : work.Ends h Q) : work.Ends h fun r g => P r g ∧ Q r g :=
  ⟨left.holds, right.holds⟩

@[simp] theorem ends_pure (a : α) (h : Host) (Q : Except Fault α → Host → Prop) :
    (pure a : Run α).Ends h Q ↔ Q (.ok a) h := ends_iff

@[simp] theorem ends_throw (f : Fault) (h : Host) (Q : Except Fault α → Host → Prop) :
    (throw f : Run α).Ends h Q ↔ Q (.error f) h := ends_iff

@[simp] theorem ends_modify (f : Host → Host) (h : Host) (Q : Except Fault Unit → Host → Prop) :
    (modify f : Run Unit).Ends h Q ↔ Q (.ok ()) (f h) := ends_iff

@[simp] theorem ends_set (g h : Host) (Q : Except Fault Unit → Host → Prop) :
    (set g : Run Unit).Ends h Q ↔ Q (.ok ()) g := ends_iff

@[simp] theorem ends_attempt (work : Run α) (h : Host)
    (Q : Except Fault (Except Fault α) → Host → Prop) :
    (attempt work).Ends h Q ↔ work.Ends h fun r g => Q (.ok r) g := by
  rw [ends_iff, ends_iff, on_attempt]

theorem ends_ofExcept (outcome : Except Fault α) (h : Host) (Q : Except Fault α → Host → Prop) :
    (ofExcept outcome).Ends h Q ↔ Q outcome h := by
  rw [ends_iff, on_ofExcept]

theorem ends_during (activity : Bytes) (work : Run α) (h : Host)
    (Q : Except Fault α → Host → Prop) :
    (during activity work).Ends h Q ↔
      work.Ends h fun r g => Q (r.mapError (·.within activity)) g := by
  rw [ends_iff, on_during, ends_iff]

/-- Work after work: what the first ends in is where the second begins. -/
theorem Ends.bind {x : Run α} {f : α → Run β} {h : Host} {P : Except Fault α → Host → Prop}
    {Q : Except Fault β → Host → Prop} (first : x.Ends h P)
    (success : ∀ a g, P (.ok a) g → (f a).Ends g Q)
    (failure : ∀ e g, P (.error e) g → Q (.error e) g) : (x >>= f).Ends h Q := by
  rw [ends_iff, on_bind]
  rw [ends_iff] at first
  generalize x.on h = ended at first ⊢
  obtain ⟨outcome, g⟩ := ended
  cases outcome with
  | ok a => exact (success a g first).holds
  | error e => exact failure e g first

/-- Work after an attempt goes on with whatever the attempt came to. -/
theorem Ends.attempt_bind {x : Run α} {f : Except Fault α → Run β} {h : Host}
    {P : Except Fault α → Host → Prop} {Q : Except Fault β → Host → Prop} (first : x.Ends h P)
    (next : ∀ r g, P r g → (f r).Ends g Q) : (attempt x >>= f).Ends h Q := by
  rw [ends_iff, on_bind, on_attempt]
  exact (next _ _ first.holds).holds

/-- Work that begins with a look at the host. -/
theorem ends_get_bind (f : Host → Run β) (h : Host) (Q : Except Fault β → Host → Prop) :
    ((get : Run Host) >>= f).Ends h Q ↔ (f h).Ends h Q := by
  rw [ends_iff, on_bind, ends_iff]
  rfl

theorem ends_map (x : Run α) (f : α → β) (h : Host) (Q : Except Fault β → Host → Prop) :
    (f <$> x).Ends h Q ↔ x.Ends h fun r g => Q (r.map f) g := by
  rw [ends_iff, on_map, ends_iff]

/-! ## Success and failure apart -/

/-- Work begun on `h` succeeds with what `done` says or fails in a host of which `fail` holds. -/
def Yields (work : Run α) (h : Host) (done : α → Host → Prop) (fail : Host → Prop) : Prop :=
  work.Ends h fun r g =>
    match r with
    | .ok a => done a g
    | .error _ => fail g

theorem Yields.mono {work : Run α} {h : Host} {done done' : α → Host → Prop}
    {fail fail' : Host → Prop} (yields : work.Yields h done fail)
    (success : ∀ a g, done a g → done' a g) (failure : ∀ g, fail g → fail' g) :
    work.Yields h done' fail' := by
  refine Ends.mono yields fun r g ended => ?_
  cases r with
  | ok a => exact success a g ended
  | error e => exact failure g ended

@[simp] theorem yields_pure (a : α) (h : Host) (done : α → Host → Prop) (fail : Host → Prop) :
    (pure a : Run α).Yields h done fail ↔ done a h := ends_iff

@[simp] theorem yields_throw (f : Fault) (h : Host) (done : α → Host → Prop) (fail : Host → Prop) :
    (throw f : Run α).Yields h done fail ↔ fail h := ends_iff

@[simp] theorem yields_set (g h : Host) (done : Unit → Host → Prop) (fail : Host → Prop) :
    (set g : Run Unit).Yields h done fail ↔ done () g := ends_iff

@[simp] theorem yields_modify (f : Host → Host) (h : Host) (done : Unit → Host → Prop)
    (fail : Host → Prop) : (modify f : Run Unit).Yields h done fail ↔ done () (f h) := ends_iff

theorem yields_during (activity : Bytes) (work : Run α) (h : Host) (done : α → Host → Prop)
    (fail : Host → Prop) : (during activity work).Yields h done fail ↔ work.Yields h done fail := by
  rw [Yields, ends_during, Yields, ends_iff, ends_iff]
  generalize work.on h = ended
  obtain ⟨outcome, g⟩ := ended
  cases outcome <;> rfl

theorem Yields.during {work : Run α} {h : Host} {done : α → Host → Prop} {fail : Host → Prop}
    (yields : work.Yields h done fail) (activity : Bytes) :
    (during activity work).Yields h done fail := (yields_during activity work h done fail).mpr yields

theorem yields_get_bind (f : Host → Run β) (h : Host) (done : β → Host → Prop)
    (fail : Host → Prop) :
    ((get : Run Host) >>= f).Yields h done fail ↔ (f h).Yields h done fail := ends_get_bind f h _

theorem yields_set_bind (g : Host) (f : Unit → Run β) (h : Host) (done : β → Host → Prop)
    (fail : Host → Prop) :
    ((set g : Run Unit) >>= f).Yields h done fail ↔ (f ()).Yields g done fail := by
  rw [Yields, Yields, ends_iff, on_bind, ends_iff]
  rfl

/-- Work after work: the second begins where the first succeeded. -/
theorem Yields.bind {x : Run α} {f : α → Run β} {h : Host} {first : α → Host → Prop}
    {done : β → Host → Prop} {fail : Host → Prop} (begun : x.Yields h first fail)
    (next : ∀ a g, first a g → (f a).Yields g done fail) : (x >>= f).Yields h done fail :=
  Ends.bind begun next fun _ _ failed => failed

theorem Yields.ofExcept_bind {outcome : Except Fault α} {f : α → Run β} {h : Host}
    {done : β → Host → Prop} {fail : Host → Prop}
    (success : ∀ a, outcome = .ok a → (f a).Yields h done fail)
    (failure : ∀ e, outcome = .error e → fail h) :
    (Run.ofExcept outcome >>= f).Yields h done fail := by
  cases outcome with
  | ok a => exact success a rfl
  | error e => exact ⟨failure e rfl⟩

/-- An attempt always succeeds; what was attempted may have failed. -/
theorem yields_attempt {work : Run α} {h : Host} {done : Except Fault α → Host → Prop}
    {fail : Host → Prop} (ends : work.Ends h done) : (attempt work).Yields h done fail :=
  (ends_attempt work h _).mpr ends

theorem Yields.of_on {work : Run α} {a : α} {h g : Host} {fail : Host → Prop}
    (ended : work.on h = (.ok a, g)) : work.Yields h (fun b k => b = a ∧ k = g) fail := by
  rw [Yields, ends_iff, ended]
  exact ⟨rfl, rfl⟩

theorem Yields.of_ok {work : Run α} {a : α} {h g : Host} {done : α → Host → Prop}
    {fail : Host → Prop} (yields : work.Yields h done fail) (ended : work.on h = (.ok a, g)) :
    done a g := by
  rwa [Yields, ends_iff, ended] at yields

theorem Yields.of_error {work : Run α} {e : Fault} {h g : Host} {done : α → Host → Prop}
    {fail : Host → Prop} (yields : work.Yields h done fail) (ended : work.on h = (.error e, g)) :
    fail g := by
  rwa [Yields, ends_iff, ended] at yields

/-- Work that cannot fail succeeds. -/
theorem Yields.exists_ok {work : Run α} {h : Host} {done : α → Host → Prop}
    (yields : work.Yields h done fun _ => False) : ∃ a g, work.on h = (.ok a, g) ∧ done a g := by
  rw [Yields, ends_iff] at yields
  cases ended : work.on h with
  | mk outcome g =>
      rw [ended] at yields
      cases outcome with
      | ok a => exact ⟨a, g, rfl, yields⟩
      | error e => exact yields.elim

theorem Yields.discard {work : Run α} {h : Host} {done : α → Host → Prop} {fail : Host → Prop}
    (yields : work.Yields h done fail) :
    (discard work : Run Unit).Yields h (fun _ g => ∃ a, done a g) fail := by
  have ended := yields.holds
  rw [Yields, ends_iff, on_discard]
  generalize work.on h = outcome at ended ⊢
  obtain ⟨outcome, g⟩ := outcome
  cases outcome with
  | ok a => exact ⟨a, ended⟩
  | error e => exact ended

theorem Yields.after_modify {f : Host → Host} {next : Unit → Run β} {h : Host}
    {done : β → Host → Prop} {fail : Host → Prop} (yields : (next ()).Yields (f h) done fail) :
    ((modify f : Run Unit) >>= next).Yields h done fail := by
  rw [Yields, ends_iff, on_bind]
  exact yields.holds

/-- A change at the end is made whether the work succeeded or failed. -/
theorem Yields.ensuring {work : Run α} {f : Host → Host} {h : Host} {done done' : α → Host → Prop}
    {fail fail' : Host → Prop} (yields : work.Yields h done fail)
    (success : ∀ a g, done a g → done' a (f g)) (failure : ∀ g, fail g → fail' (f g)) :
    (Run.ensuring work (modify f)).Yields h done' fail' := by
  have ended := yields.holds
  rw [Yields, ends_iff, on_ensuring]
  generalize work.on h = outcome at ended ⊢
  obtain ⟨outcome, g⟩ := outcome
  cases outcome with
  | ok a => exact success a g ended
  | error e => exact failure g ended

theorem Yields.ends {work : Run α} {h : Host} {done : α → Host → Prop} {fail : Host → Prop}
    (yields : work.Yields h done fail) {Q : Except Fault α → Host → Prop}
    (success : ∀ a g, done a g → Q (.ok a) g) (failure : ∀ e g, fail g → Q (.error e) g) :
    work.Ends h Q := by
  refine Ends.mono yields fun r g ended => ?_
  cases r with
  | ok a => exact success a g ended
  | error e => exact failure e g ended

theorem Ends.yields {work : Run α} {h : Host} {Q : Except Fault α → Host → Prop}
    (ends : work.Ends h Q) {done : α → Host → Prop} {fail : Host → Prop}
    (success : ∀ a g, Q (.ok a) g → done a g) (failure : ∀ {e} g, Q (.error e) g → fail g) :
    work.Yields h done fail := by
  refine Ends.mono ends fun r g ended => ?_
  cases r with
  | ok a => exact success a g ended
  | error e => exact failure g ended

theorem yields_of_on {work : Run α} {h : Host} {done : α → Host → Prop} {fail : Host → Prop}
    (success : ∀ a g, work.on h = (.ok a, g) → done a g)
    (failure : ∀ e g, work.on h = (.error e, g) → fail g) : work.Yields h done fail := by
  rw [Yields, ends_iff]
  cases ended : work.on h with
  | mk outcome g =>
      cases outcome with
      | ok a => exact success a g ended
      | error e => exact failure e g ended

/-- Work comes to what it comes to. -/
theorem yields_on (work : Run α) (h : Host) :
    work.Yields h (fun a g => work.on h = (.ok a, g)) fun _ => True :=
  yields_of_on (fun _ _ ended => ended) fun _ _ _ => trivial

/-- Work after work, by what the first comes to. -/
theorem yields_bind_on {x : Run α} {f : α → Run β} {h : Host} {done : β → Host → Prop}
    {fail : Host → Prop} (success : ∀ a g, x.on h = (.ok a, g) → (f a).Yields g done fail)
    (failure : ∀ e g, x.on h = (.error e, g) → fail g) : (x >>= f).Yields h done fail :=
  Ends.bind (P := fun r g => x.on h = (r, g)) ⟨rfl⟩ success failure

/-- A failure that does not matter. -/
theorem Yields.anyway {work : Run α} {h : Host} {done : α → Host → Prop} {fail : Host → Prop}
    (yields : work.Yields h done fail) : work.Yields h done fun _ => True :=
  yields.mono (fun _ _ ended => ended) fun _ _ => trivial

/-! ## Relations between the host before and after -/

/-- A relation that holds of a sequence of steps when it holds of each. -/
structure Lasting (R : Host → Host → Prop) : Prop where
  refl : ∀ h, R h h
  trans : ∀ {h g k}, R h g → R g k → R h k

/-- Work takes every host to one that `R` relates to it, however it ends. -/
def Keeps (R : Host → Host → Prop) (work : Run α) : Prop := ∀ h, R h (work.on h).2

namespace Keeps

variable {R S : Host → Host → Prop}

theorem ends {work : Run α} (keeps : work.Keeps R) (h : Host) : work.Ends h fun _ g => R h g :=
  ⟨keeps h⟩

theorem yields {work : Run α} (keeps : work.Keeps R) (h : Host) : work.Yields h (fun _ => R h) (R h) :=
  (keeps.ends h).yields (fun _ _ after => after) fun _ after => after

theorem after {work : Run α} (keeps : work.Keeps R) {h g : Host} {outcome : Except Fault α}
    (ended : work.on h = (outcome, g)) : R h g := by
  have kept := keeps h
  rw [ended] at kept
  exact kept

theorem mono {work : Run α} (keeps : work.Keeps R) (implies : ∀ {h g}, R h g → S h g) :
    work.Keeps S := fun h => implies (keeps h)

theorem pure (lasting : Lasting R) (a : α) : (Pure.pure a : Run α).Keeps R := lasting.refl

theorem throw (lasting : Lasting R) (f : Fault) : (MonadExcept.throw f : Run α).Keeps R :=
  lasting.refl

theorem ofExcept (lasting : Lasting R) (outcome : Except Fault α) :
    (Run.ofExcept outcome).Keeps R := by
  intro h
  rw [on_ofExcept]
  exact lasting.refl h

theorem of_modify {f : Host → Host} (step : ∀ h, R h (f h)) : (modify f : Run Unit).Keeps R :=
  step

theorem bind (lasting : Lasting R) {x : Run α} {f : α → Run β} (first : x.Keeps R)
    (second : ∀ a, (f a).Keeps R) : (x >>= f).Keeps R := by
  intro h
  have after := first h
  rw [on_bind]
  generalize x.on h = ended at after ⊢
  obtain ⟨outcome, g⟩ := ended
  cases outcome with
  | ok a => exact lasting.trans after (second a g)
  | error e => exact after

/-- Work that looks at the host first need only keep `R` on the host it saw. -/
theorem get_bind {f : Host → Run β} (step : ∀ h, R h ((f h).on h).2) :
    ((get : Run Host) >>= f).Keeps R := by
  intro h
  rw [on_bind]
  exact step h

theorem attempt {work : Run α} (keeps : work.Keeps R) : (Run.attempt work).Keeps R := keeps

theorem during {work : Run α} (keeps : work.Keeps R) (activity : Bytes) :
    (Run.during activity work).Keeps R := by
  intro h
  rw [on_during]
  exact keeps h

theorem map (lasting : Lasting R) {x : Run α} (keeps : x.Keeps R) (f : α → β) :
    (f <$> x).Keeps R := by
  rw [map_eq_pure_bind]
  exact keeps.bind lasting fun a => pure lasting (f a)

theorem ensuring (lasting : Lasting R) {work : Run α} {cleanup : Run Unit}
    (keeps : work.Keeps R) (cleans : cleanup.Keeps R) :
    (Run.ensuring work cleanup).Keeps R := by
  refine bind lasting keeps.attempt fun outcome => bind lasting cleans fun _ => ?_
  cases outcome with
  | ok a => exact pure lasting a
  | error f => exact throw lasting f

theorem forM (lasting : Lasting R) {f : α → Run Unit} (each : ∀ a, (f a).Keeps R) :
    ∀ xs : List α, (xs.forM f).Keeps R
  | [] => pure lasting ()
  | x :: xs => bind lasting (each x) fun _ => forM lasting each xs

theorem foldlM (lasting : Lasting R) {f : β → α → Run β} (each : ∀ b a, (f b a).Keeps R) :
    ∀ (xs : List α) (b : β), (xs.foldlM f b).Keeps R
  | [], b => pure lasting b
  | x :: xs, b => bind lasting (each b x) fun b => foldlM lasting each xs b

end Keeps

end Run

namespace Host

/-- Apart from its files, `g` is the machine that `h` is to programs. -/
structure SameSetting (h g : Host) : Prop where
  folder : g.folder = h.folder
  repositories : g.repositories = h.repositories
  environment : g.environment = h.environment

/-- `g` has the files of `h`, and programs on it find what they find on `h`. -/
structure SameFiles (h g : Host) : Prop extends SameSetting h g where
  tree : g.tree = h.tree

/-- Nothing changed but what was reported, counted and used up. -/
structure Quiet (h g : Host) : Prop extends SameFiles h g where
  cache : g.tally.cache = h.tally.cache

theorem sameSetting_lasting : Run.Lasting SameSetting where
  refl _ := ⟨rfl, rfl, rfl⟩
  trans := by
    rintro h g k ⟨f, r, e⟩ ⟨f', r', e'⟩
    exact ⟨f'.trans f, r'.trans r, e'.trans e⟩

theorem sameFiles_lasting : Run.Lasting SameFiles where
  refl h := ⟨sameSetting_lasting.refl h, rfl⟩
  trans := by
    rintro h g k ⟨setting, tree⟩ ⟨setting', tree'⟩
    exact ⟨sameSetting_lasting.trans setting setting', tree'.trans tree⟩

theorem look_of_sameFiles {h g : Host} (same : SameFiles h g) (p : Bytes) : g.look p = h.look p := by
  simp only [look, locate, same.tree, same.folder]

theorem quiet_lasting : Run.Lasting Quiet where
  refl h := ⟨sameFiles_lasting.refl h, rfl⟩
  trans := by
    rintro h g k ⟨files, cache⟩ ⟨files', cache'⟩
    exact ⟨sameFiles_lasting.trans files files', cache'.trans cache⟩

/-- Two hosts that one came to be without a change of files. -/
theorem Quiet.beside {h g k : Host} (first : Quiet h g) (second : Quiet h k) : Quiet g k :=
  ⟨⟨⟨second.folder.trans first.folder.symm, second.repositories.trans first.repositories.symm,
    second.environment.trans first.environment.symm⟩, second.tree.trans first.tree.symm⟩,
    second.cache.trans first.cache.symm⟩

/-! ## Work that changes no file -/

open Run (Keeps)

theorem reportIn_quiet (context : List Journal.Attribute) (level : Journal.Level)
    (message : String) (attributes : List (String × Journal.Value)) :
    (reportIn context level message attributes).Keeps Quiet :=
  Keeps.of_modify fun _ => ⟨⟨⟨rfl, rfl, rfl⟩, rfl⟩, rfl⟩

theorem report_quiet (level : Journal.Level) (message : String)
    (attributes : List (String × Journal.Value)) :
    (report level message attributes).Keeps Quiet :=
  Keeps.get_bind fun h => reportIn_quiet h.context level message attributes h

theorem startStage_quiet (stage : String) (total : Int) : (startStage stage total).Keeps Quiet :=
  Keeps.of_modify fun _ => ⟨⟨⟨rfl, rfl, rfl⟩, rfl⟩, rfl⟩

theorem changeStage_quiet (f : Progress → Progress) : (changeStage f).Keeps Quiet :=
  Keeps.of_modify fun _ => ⟨⟨⟨rfl, rfl, rfl⟩, rfl⟩, rfl⟩

theorem advanceStage_quiet : advanceStage.Keeps Quiet := changeStage_quiet _

theorem count_quiet (f : Metrics → Metrics) : (count f).Keeps Quiet :=
  Keeps.of_modify fun _ => ⟨⟨⟨rfl, rfl, rfl⟩, rfl⟩, rfl⟩

theorem remember_quiet {f : Tally → Tally} (cache : ∀ t, (f t).cache = t.cache) :
    (remember f).Keeps Quiet :=
  Keeps.of_modify fun h => ⟨⟨⟨rfl, rfl, rfl⟩, rfl⟩, cache h.tally⟩

/-- Work whose reports carry more attributes does what it does anyway. -/
theorem withContext_yields {α : Type} (attributes : List Journal.Attribute) {work : Run α} {h : Host}
    {done : α → Host → Prop} {fail : Host → Prop}
    (yields : work.Yields { h with context := h.context ++ attributes } done fail)
    (success : ∀ {a g k}, done a g → Quiet g k → done a k)
    (failure : ∀ {g k}, fail g → Quiet g k → fail k) :
    (withContext attributes work).Yields h done fail := by
  rw [withContext, Run.yields_get_bind]
  refine Run.Yields.after_modify (Run.Yields.ensuring yields ?_ ?_)
  · exact fun a g ended => success ended ⟨⟨⟨rfl, rfl, rfl⟩, rfl⟩, rfl⟩
  · exact fun g ended => failure ended ⟨⟨⟨rfl, rfl, rfl⟩, rfl⟩, rfl⟩

/-- Work that cannot fail and changes nothing but what is reported and counted. -/
def Sure {α : Type} (work : Run α) : Prop := ∀ h, work.Yields h (fun _ => Quiet h) (fun _ => False)

theorem sure_modify {f : Host → Host} (quiet : ∀ h, Quiet h (f h)) : Sure (modify f : Run Unit) :=
  fun h => (Run.yields_modify _ _ _ _).mpr (quiet h)

theorem Sure.bind {α β : Type} {x : Run α} {f : α → Run β} (first : Sure x)
    (second : ∀ a, Sure (f a)) : Sure (x >>= f) := fun h =>
  (first h).bind fun a g same =>
    (second a g).mono (fun _ _ same' => quiet_lasting.trans same same') fun _ never => never

/-- Work after work that cannot fail. -/
theorem Sure.yields_bind {α β : Type} {x : Run α} {f : α → Run β} {h : Host} {done : β → Host → Prop}
    {fail : Host → Prop} (sure : Sure x) (next : ∀ a g, Quiet h g → (f a).Yields g done fail) :
    (x >>= f).Yields h done fail :=
  ((sure h).mono (fun _ _ same => same) fun _ never => never.elim).bind next

theorem Sure.forM {α : Type} {f : α → Run Unit} (each : ∀ a, Sure (f a)) :
    ∀ xs : List α, Sure (xs.forM f)
  | [] => fun h => (Run.yields_pure _ _ _ _).mpr (quiet_lasting.refl h)
  | x :: xs => (each x).bind fun _ => Sure.forM each xs

/-- What is only attempted cannot fail. -/
theorem attempt_sure {α : Type} {work : Run α} (quiet : work.Keeps Quiet) :
    Sure (Run.attempt work) :=
  fun h => Run.yields_attempt (quiet.ends h)

/-- Cleaning up that cannot fail leaves what the work came to. -/
theorem ensuring_yields {α : Type} {work : Run α} {cleanup : Run Unit} {h : Host}
    {done : α → Host → Prop} {fail : Host → Prop} (yields : work.Yields h done fail)
    (sure : Sure cleanup) (success : ∀ {a g k}, done a g → Quiet g k → done a k)
    (failure : ∀ {g k}, fail g → Quiet g k → fail k) :
    (Run.ensuring work cleanup).Yields h done fail := by
  rw [Run.ensuring]
  refine (Run.yields_attempt yields).bind fun outcome g ended => ?_
  refine sure.yields_bind fun _ k same => ?_
  cases outcome with
  | ok a => exact ⟨success ended same⟩
  | error e => exact ⟨failure ended same⟩

theorem advanceStage_sure : Sure advanceStage := sure_modify advanceStage_quiet

theorem count_sure (f : Metrics → Metrics) : Sure (count f) := sure_modify (count_quiet f)

theorem remember_sure {f : Tally → Tally} (cache : ∀ t, (f t).cache = t.cache) :
    Sure (remember f) := sure_modify (remember_quiet cache)

theorem report_sure (level : Journal.Level) (message : String)
    (attributes : List (String × Journal.Value)) : Sure (report level message attributes) :=
  fun h => (Run.yields_get_bind _ _ _ _).mpr
    ((Run.yields_modify _ _ _ _).mpr (reportIn_quiet h.context level message attributes h))

theorem get_quiet : (get : Run Host).Keeps Quiet := fun h => quiet_lasting.refl h

/-- Work that changes no file and comes to `a` unless it fails. -/
def Answers {α : Type} (a : α) (work : Run α) : Prop :=
  ∀ h, work.Yields h (fun b g => b = a ∧ Quiet h g) (Quiet h)

theorem answers_pure {α : Type} (a : α) : Answers a (pure a) :=
  fun h => (Run.yields_pure _ _ _ _).mpr ⟨rfl, quiet_lasting.refl h⟩

theorem Answers.after {α β : Type} {a : α} {work : Run β} {next : β → Run α}
    (first : work.Keeps Quiet) (second : ∀ b, Answers a (next b)) : Answers a (work >>= next) :=
  fun h => (first.yields h).bind fun b g same =>
    (second b g).mono (fun _ _ ended => ⟨ended.1, quiet_lasting.trans same ended.2⟩)
      fun _ same' => quiet_lasting.trans same same'

theorem checkpoint_quiet : Run.checkpoint.Keeps Quiet := by
  refine Keeps.get_bind fun h => ?_
  rcases h.interrupt with _ | _ | n
  · exact quiet_lasting.refl h
  · exact quiet_lasting.refl h
  · exact ⟨⟨⟨rfl, rfl, rfl⟩, rfl⟩, rfl⟩

theorem checkpoint_processors :
    Run.checkpoint.Keeps fun h g => g.processors = h.processors := by
  refine Keeps.get_bind fun h => ?_
  rcases h.interrupt with _ | _ | n <;> rfl

@[simp] theorem on_isThere (p : Bytes) (h : Host) :
    (isThere p).on h = (.ok (h.look p).isOk, h) := rfl

theorem system_quiet {α : Type} (operation : String) (p : Bytes) (answer : Except SystemError α) :
    (system operation p answer).Keeps Quiet := by
  cases answer with
  | ok a => exact Keeps.pure quiet_lasting a
  | error e => exact Keeps.throw quiet_lasting _

theorem readFile_quiet (p : Bytes) : (readFile p).Keeps Quiet := by
  refine Keeps.get_bind fun h => ?_
  refine Keeps.bind quiet_lasting (system_quiet _ _ _) (fun node => ?_) h
  cases node with
  | file content executable => exact Keeps.pure quiet_lasting content
  | folder => exact Keeps.throw quiet_lasting _

theorem on_stage {α : Type} (name : String) (total : Int) (work : Run α) (h : Host) :
    (stage name total work).on h =
      ((work.on ((startStage name total).on h).2).1,
        ((changeStage fun p => { p with finished := true }).on
          (work.on ((startStage name total).on h).2).2).2) := by
  rw [stage, Run.on_bind]
  exact Run.on_ensuring work _ _

/-- A stage succeeds and fails as its work does. -/
theorem stage_yields {α : Type} (name : String) (total : Int) {work : Run α} {h : Host}
    {done : α → Host → Prop} {fail : Host → Prop}
    (yields : ∀ g, Quiet h g → g.processors = h.processors → work.Yields g done fail)
    (success : ∀ {a g k}, done a g → Quiet g k → done a k)
    (failure : ∀ {g k}, fail g → Quiet g k → fail k) : (stage name total work).Yields h done fail := by
  let finish := fun (p : Progress) => { p with finished := true }
  have begun := startStage_quiet name total h
  refine Run.Yields.after_modify (Run.Yields.ensuring (yields _ begun rfl) ?_ ?_)
  · exact fun a g ended => success ended (changeStage_quiet finish g)
  · exact fun g ended => failure ended (changeStage_quiet finish g)

end Host

end SymbolHistory
