/-
# Proofs.Causes -- what can stop work

`work.Throws P` says that whatever stops `work`, on any host, is a fault of which
`P` holds.  This is closed under everything a `Run` is put together from; an
attempt hands what stopped it on to what comes after (`Throws.attempt_bind`).

Work on files is stopped when it is called off or when the system refuses
something, and for no other reason.  So it throws `P` as soon as `P` covers these
two and does not mind what was going on (`Fault.Covers`): one argument for each
piece of work, whatever is to be said about the faults.
-/
import SymbolHistory.ObjectStore
import SymbolHistory.Proofs.Work

set_option autoImplicit false

namespace SymbolHistory

open Run

/-- Faults among which are those of work that is called off or refused by the system. -/
structure Fault.Covers (P : Fault → Prop) : Prop where
  canceled : P .canceled
  system : ∀ operation path error, P (.system operation path error)
  during : ∀ activity {f}, P f → P (.during activity f)

theorem Fault.Covers.within {P : Fault → Prop} (covers : Covers P) (activity : Bytes) {f : Fault}
    (holds : P f) : P (f.within activity) := by
  cases f with
  | defect text => exact holds
  | _ => exact covers.during activity holds

namespace Run

variable {α β : Type} {P : Fault → Prop}

/-- Whatever stops the work is a fault of which `P` holds. -/
def Throws (P : Fault → Prop) (work : Run α) : Prop := ∀ h f, (work.on h).1 = .error f → P f

/-- Whatever the work comes to when it succeeds is something of which `Q` holds. -/
def Gives (Q : α → Prop) (work : Run α) : Prop := ∀ h a, (work.on h).1 = .ok a → Q a

namespace Throws

theorem pure (a : α) : (Pure.pure a : Run α).Throws P := nofun

theorem throw {f : Fault} (holds : P f) : (MonadExcept.throw f : Run α).Throws P := by
  rintro h _ ⟨⟩
  exact holds

theorem of_modify (f : Host → Host) : (modify f : Run Unit).Throws P := by
  intro h e failed
  rw [on_modify] at failed
  cases failed

theorem of_set (g : Host) : (set g : Run Unit).Throws P := by
  intro h e failed
  rw [on_set] at failed
  cases failed

theorem ofExcept {outcome : Except Fault α} (holds : ∀ f, outcome = .error f → P f) :
    (Run.ofExcept outcome).Throws P := fun h f failed => holds f (by rwa [on_ofExcept] at failed)

/-- Work after work: the second is begun with something that the first gives. -/
theorem bind_gives {x : Run α} {f : α → Run β} {Q : α → Prop} (first : x.Throws P) (gives : x.Gives Q)
    (next : ∀ a, Q a → (f a).Throws P) : (x >>= f).Throws P := by
  intro h e failed
  rw [on_bind] at failed
  cases ended : x.on h with
  | mk outcome g =>
      rw [ended] at failed
      cases outcome with
      | ok a => exact next a (gives h a (by rw [ended])) g e failed
      | error e' =>
          cases failed
          exact first h e (by rw [ended])

theorem bind {x : Run α} {f : α → Run β} (first : x.Throws P) (next : ∀ a, (f a).Throws P) :
    (x >>= f).Throws P :=
  bind_gives (Q := fun _ => True) first (fun _ _ _ => trivial) fun a _ => next a

/-- Work that begins with a look at the host. -/
theorem get_bind {f : Host → Run β} (next : ∀ h, (f h).Throws P) : ((get : Run Host) >>= f).Throws P :=
  bind (fun h e failed => by rw [on_get] at failed; cases failed) next

/-- Whatever stopped an attempt is at hand afterwards. -/
theorem attempt_bind {x : Run α} {f : Except Fault α → Run β} (first : x.Throws P)
    (success : ∀ a, (f (.ok a)).Throws P) (failure : ∀ e, P e → (f (.error e)).Throws P) :
    (Run.attempt x >>= f).Throws P := by
  refine bind_gives (Q := fun r => ∀ e, r = .error e → P e) ?_ ?_ fun r holds => ?_
  · intro h e failed
    rw [on_attempt] at failed
    cases failed
  · intro h r given e same
    rw [on_attempt, Except.ok.injEq] at given
    exact first h e (given.trans same)
  · cases r with
    | ok a => exact success a
    | error e => exact failure e (holds e rfl)

theorem during (covers : Fault.Covers P) {work : Run α} (throws : work.Throws P) (activity : Bytes) :
    (Run.during activity work).Throws P := by
  intro h e failed
  rw [on_during] at failed
  cases ended : (work.on h).1 with
  | ok a =>
      rw [ended] at failed
      cases failed
  | error f =>
      rw [ended] at failed
      cases failed
      exact covers.within activity (throws h f ended)

theorem map {work : Run α} (throws : work.Throws P) (f : α → β) : (f <$> work).Throws P := by
  rw [map_eq_pure_bind]
  exact throws.bind fun a => pure (f a)

theorem unvalued {work : Run α} (throws : work.Throws P) : (discard work : Run Unit).Throws P :=
  throws.map fun _ => ()

theorem forM {f : α → Run Unit} (each : ∀ a, (f a).Throws P) (as : List α) : (as.forM f).Throws P := by
  induction as with
  | nil => exact pure ()
  | cons a as ih => exact bind (each a) fun _ => ih

theorem mapM {f : α → Run β} (each : ∀ a, (f a).Throws P) (as : List α) : (as.mapM f).Throws P := by
  induction as with
  | nil => exact pure []
  | cons a as ih =>
      rw [List.mapM_cons]
      exact bind (each a) fun b => bind ih fun bs => pure (b :: bs)

theorem ensuring {work : Run α} {cleanup : Run Unit} (throws : work.Throws P)
    (cleans : cleanup.Throws P) : (Run.ensuring work cleanup).Throws P := by
  unfold Run.ensuring
  apply attempt_bind throws
  · exact fun a => bind cleans fun _ => pure a
  · exact fun e holds => bind cleans fun _ => throw holds

end Throws

namespace Gives

variable {Q : α → Prop} {R : β → Prop}

theorem pure {a : α} (holds : Q a) : (Pure.pure a : Run α).Gives Q := by
  intro h b given
  rw [on_pure, Except.ok.injEq] at given
  exact given ▸ holds

theorem bind {x : Run α} {f : α → Run β} (first : x.Gives Q) (next : ∀ a, Q a → (f a).Gives R) :
    (x >>= f).Gives R := by
  intro h b given
  obtain ⟨a, k, begun, ended⟩ := on_bind_ok (on_eq_of_ok given)
  exact next a (first h a (by rw [begun])) k b (by rw [ended])

/-- What came before does not matter. -/
theorem after {x : Run α} {f : α → Run β} (next : ∀ a, (f a).Gives R) : (x >>= f).Gives R :=
  bind (Q := fun _ => True) (fun _ _ _ => trivial) fun a _ => next a

/-- An attempt gives whatever stopped it. -/
theorem attempt {x : Run α} (throws : x.Throws P) (gives : x.Gives Q) :
    (Run.attempt x).Gives fun r => (∀ a, r = .ok a → Q a) ∧ ∀ f, r = .error f → P f := by
  intro h r given
  rw [on_attempt, Except.ok.injEq] at given
  subst given
  exact ⟨gives h, throws h⟩

end Gives

end Run

/-! ## Files -/

section

variable {P : Fault → Prop} (covers : Fault.Covers P)

include covers

theorem Run.checkpoint_throws : Run.checkpoint.Throws P :=
  Throws.get_bind fun h => by
    split
    · exact Throws.pure _
    · exact Throws.throw covers.canceled
    · exact Throws.of_set _

namespace Host

theorem system_throws {α : Type} (operation : String) (p : Bytes) (outcome : Except SystemError α) :
    (system operation p outcome).Throws P := by
  cases outcome with
  | ok a => exact Throws.pure a
  | error e => exact Throws.throw (covers.system _ _ _)

theorem readFile_throws (p : Bytes) : (readFile p).Throws P :=
  Throws.get_bind fun h => (system_throws covers _ _ _).bind fun node => by
    cases node with
    | file content executable => exact Throws.pure _
    | folder => exact Throws.throw (covers.system _ _ _)

theorem makeFolder_throws (p : Bytes) : (makeFolder p).Throws P :=
  Throws.get_bind fun h => by
    split
    · exact Throws.pure _
    · exact Throws.throw (covers.system _ _ _)
    · exact (system_throws covers _ _ _).bind fun _ => Throws.of_modify _

theorem makeFolders_throws (p : Bytes) : (makeFolders p).Throws P :=
  Throws.forM (makeFolder_throws covers) _

theorem takeRoom_throws (p : Bytes) (n : Nat) : (takeRoom p n).Throws P :=
  Throws.get_bind fun h => by
    split
    · exact Throws.pure _
    · split
      · exact Throws.throw (covers.system _ _ _)
      · exact Throws.of_set _

theorem append_throws (p data : Bytes) : (append p data).Throws P :=
  (takeRoom_throws covers p data.length).bind fun _ => Throws.get_bind fun h => by
    split
    · exact Throws.of_modify _
    · exact Throws.pure _

theorem createTemporary_throws (inside stem : Bytes) : (createTemporary inside stem).Throws P :=
  Throws.get_bind fun _ => (Throws.of_set _).bind fun _ => (system_throws covers _ _ _).bind fun _ =>
    (Throws.of_modify _).bind fun _ => Throws.pure _

theorem rename_throws (old new : Bytes) : (rename old new).Throws P :=
  Throws.get_bind fun h => by
    dsimp only
    split
    · exact Throws.throw (covers.system _ _ _)
    · split
      · exact Throws.throw (covers.system _ _ _)
      · split
        · exact Throws.throw (covers.system _ _ _)
        · exact Throws.of_set _

end Host

namespace AtomicFile

theorem create_throws (dest : Bytes) : (create dest).Throws P :=
  ((Host.makeFolders_throws covers _).during covers _).bind fun _ =>
    ((Host.createTemporary_throws covers _ _).during covers _).bind fun _ => Throws.pure _

omit covers in
/-- A file that has just been begun is not finished. -/
theorem create_gives (dest : Bytes) : (create dest).Gives fun f => f.done = false :=
  Gives.after fun _ => Gives.after fun _ => Gives.pure rfl

/-- A file that cannot be moved is removed, and what refused it is reported. -/
theorem place_gives (f : AtomicFile) : f.place.Gives fun outcome => ∀ e, outcome = .error e → P e := by
  refine Gives.bind (Gives.attempt (Host.rename_throws covers _ _) fun _ _ _ => trivial) ?_
  rintro outcome ⟨-, holds⟩
  cases outcome with
  | ok _ => exact Gives.pure nofun
  | error e =>
      refine Gives.after fun _ => Gives.pure ?_
      rintro _ ⟨⟩
      exact covers.during _ (holds e rfl)

omit covers in
theorem place_throws (f : AtomicFile) : f.place.Throws P := by
  refine Throws.bind (fun h e failed => ?_) fun outcome => ?_
  · rw [on_attempt] at failed
    cases failed
  · cases outcome with
    | ok _ => exact Throws.pure _
    | error e => exact (Throws.of_modify _).bind fun _ => Throws.pure _

theorem commit_throws {f : AtomicFile} (open_ : f.done = false) : f.commit.Throws P := by
  have first : f.finish .commit =
      f.place >>= fun outcome => pure ({ f with done := true }, outcome) := by
    unfold finish
    rw [open_]
  unfold commit
  rw [first]
  refine Throws.bind_gives (Q := fun r => ∀ e, r.2 = .error e → P e) ?_ ?_ fun r holds =>
    Throws.ofExcept holds
  · exact (place_throws f).bind fun _ => Throws.pure _
  · exact Gives.bind (place_gives covers f) fun outcome holds => Gives.pure holds

omit covers in
theorem abort_throws (f : AtomicFile) : (f.finish .abort).Throws P := by
  obtain ⟨temp, dest, done⟩ := f
  cases done with
  | true => exact Throws.pure _
  | false => exact (Throws.of_modify _).bind fun _ => Throws.pure _

/-- Writing a file adds no other faults to those of the work on it. -/
theorem writing_throws {α : Type} (dest : Bytes) {work : AtomicFile → Run α}
    (throws : ∀ f, (work f).Throws P) : (writing dest work).Throws P := by
  refine (create_throws covers dest).bind_gives (create_gives dest) fun f open_ => ?_
  apply Throws.attempt_bind (throws f)
  · exact fun a => (commit_throws covers open_).bind fun _ => Throws.pure a
  · exact fun e holds => (abort_throws f).unvalued.bind fun _ => Throws.throw holds

theorem writeAll_throws (dest data : Bytes) : (writeAll dest data).Throws P :=
  writing_throws covers dest fun f => (Host.append_throws covers f.temp data).during covers _

end AtomicFile

namespace ObjectStore

/-- A name that is no id is refused. -/
theorem checkId_throws (verb : String) (id : Bytes)
    (refused : ObjectId.isValid id = false → P (.invalidId id)) : (checkId verb id).Throws P := by
  refine Throws.during covers (Throws.ofExcept fun f failed => ?_) _
  unfold ObjectId.validate at failed
  split at failed
  · cases failed
  · rename_i invalid
    cases failed
    exact refused (Bool.eq_false_iff.mpr invalid)

theorem read_throws (s : ObjectStore) (id : Bytes)
    (refused : ObjectId.isValid id = false → P (.invalidId id)) : (s.read id).Throws P :=
  (checkId_throws covers _ id refused).bind fun _ => (Host.readFile_throws covers _).during covers _

theorem write_throws (s : ObjectStore) (id data : Bytes)
    (refused : ObjectId.isValid id = false → P (.invalidId id)) : (s.write id data).Throws P := by
  refine (checkId_throws covers _ id refused).bind fun _ => Throws.bind (Throws.get_bind fun _ => Throws.pure _) fun there => ?_
  split
  · exact Throws.pure _
  · exact ((AtomicFile.writeAll_throws covers _ _).during covers _).bind fun _ => Throws.pure _

end ObjectStore

end

end SymbolHistory
