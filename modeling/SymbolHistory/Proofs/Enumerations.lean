/-
# Proofs.Enumerations -- the order in which symbols are met

A table promises no order of its symbols, so a diff may be made from any
(`Enumeration`).  The places of a symbol and the symbols of a version do not
depend on it: whatever the order, a diff has the same records
(`records_met_perm`).  Listing sorts the symbols, so their order in the diff does
not depend on it either, unless ids clash: then sorting does not undo the order
(`diff_met`).
-/
import SymbolHistory.Proofs.MissingDiffs
import SymbolHistory.Proofs.VersionSequences

set_option autoImplicit false

namespace SymbolHistory

namespace Table

variable {t u : Table}

/-- No ids of a table clash. -/
def Clear (t : Table) : Prop :=
  ∀ a ∈ t.rows.map Prod.fst, ∀ b ∈ t.rows.map Prod.fst, ∀ c ∈ t.rows.map Prod.fst,
    ¬SymbolId.Clash a b c

/-- No id stands twice. -/
def Distinct (t : Table) : Prop := (t.rows.map Prod.fst).Nodup

/-- Three ids that clash are three. -/
theorem clear_of_length (short : t.rows.length < 3) : t.Clear := by
  intro a inA b inB c inC clash
  obtain ⟨first, second, third⟩ := clash.cycle
  have apart : ∀ {x y : SymbolId}, SymbolId.order x y = .lt → x ≠ y := by
    rintro x y ahead rfl
    rw [(SymbolId.order_eq_iff x x).mpr rfl] at ahead
    cases ahead
  have nodup : [a, b, c].Nodup := by
    simp [apart first, apart second, (apart third).symm]
  have subset : [a, b, c] ⊆ t.rows.map Prod.fst := by
    simp only [List.cons_subset, inA, inB, inC, List.nil_subset, and_self]
  have := (List.subperm_of_subset nodup subset).length_le
  simp at this
  omega

theorem distinct_ofLoads (v : Version) : (ofLoads v).Distinct := (keys_ofLoads v).1

theorem clear_ofLoads_iff {v : Version} :
    (ofLoads v).Clear ↔ ∀ a ∈ v.ids, ∀ b ∈ v.ids, ∀ c ∈ v.ids, ¬SymbolId.Clash a b c := by
  simp only [Clear, (keys_ofLoads v).2]

/-- In a table each id has one row. -/
theorem get?_eq_some_iff (distinct : t.Distinct) {id : SymbolId} {places : List Occurrence} :
    t.get? id = some places ↔ (id, places) ∈ t.rows := by
  rw [get?, Option.map_eq_some_iff]
  constructor
  · rintro ⟨r, found, rfl⟩
    obtain rfl : r.1 = id := by simpa using List.find?_some found
    exact List.mem_of_find?_eq_some found
  · intro member
    cases found : t.rows.find? (fun r => r.1 == id) with
    | none => exact absurd (beq_self_eq_true id) (List.find?_eq_none.mp found _ member)
    | some r =>
        have same : r.1 = id := by simpa using List.find?_some found
        exact ⟨r, rfl, congrArg Prod.snd
          (List.inj_on_of_nodup_map distinct (List.mem_of_find?_eq_some found) member same)⟩

end Table

namespace Enumeration

open Table

variable {t u : Table} (order : Enumeration)

theorem keys_met : ((order.met t).rows.map Prod.fst).Perm (t.rows.map Prod.fst) :=
  (order.perm t).map Prod.fst

theorem get?_met (distinct : t.Distinct) (id : SymbolId) : (order.met t).get? id = t.get? id := by
  have distinct' : (order.met t).Distinct := order.keys_met.nodup_iff.mpr distinct
  refine Option.ext fun places => ?_
  rw [get?_eq_some_iff distinct', get?_eq_some_iff distinct, (order.perm t).mem_iff]

theorem contains_met (id : SymbolId) : (order.met t).contains id = t.contains id := by
  rw [Bool.eq_iff_iff, contains_iff, contains_iff, order.keys_met.mem_iff]

theorem ids_met (clear : t.Clear) : (order.met t).ids = t.ids :=
  (ids_eq_of_perm order.keys_met.symm clear).symm

/-- What the exclusive symbols of a table are listed from. -/
theorem exclusive_met_eq (action : Action) (distinct : t.Distinct) :
    exclusive action (order.met t) (order.met u) =
      ((order.met t).ids.filter fun id => !u.contains id).flatMap fun id =>
        ((t.get? id).getD []).map (Record.mk action id) := by
  simp only [exclusive, order.contains_met, order.get?_met distinct]

theorem exclusive_met (action : Action) (distinct : t.Distinct) (clear : t.Clear) :
    exclusive action (order.met t) (order.met u) = exclusive action t u := by
  rw [order.exclusive_met_eq action distinct, order.ids_met clear, exclusive]

theorem exclusive_met_perm (action : Action) (distinct : t.Distinct) :
    (exclusive action (order.met t) (order.met u)).Perm (exclusive action t u) := by
  rw [order.exclusive_met_eq action distinct, exclusive]
  refine List.Perm.flatMap_right _ (List.Perm.filter _ ?_)
  exact (List.mergeSort_perm _ _).trans (order.keys_met.trans (List.mergeSort_perm _ _).symm)

/-- Whatever the order, two versions differ in the same records. -/
theorem records_met_perm (distinct : t.Distinct) (distinct' : u.Distinct) :
    ((order.met t).diff (order.met u)).records.Perm (t.diff u).records :=
  (order.exclusive_met_perm .remove distinct).append (order.exclusive_met_perm .add distinct')

/-- Sorting undoes the order unless ids clash. -/
theorem diff_met (distinct : t.Distinct) (distinct' : u.Distinct) (clear : t.Clear)
    (clear' : u.Clear) : (order.met t).diff (order.met u) = t.diff u := by
  have common := (order.keys_met (t := t)).filter u.contains
  simp only [diff, order.exclusive_met _ distinct clear, order.exclusive_met _ distinct' clear',
    funext fun id => order.contains_met (t := u) id, common.length_eq]

end Enumeration

namespace Comparison

variable {t u : Table}

theorem versionBefore_of {P : Table → Prop} {T : Tag → Table} {tags : List Tag} (empty : P {})
    (each : ∀ tag ∈ tags, P (T tag)) (i : Nat) : P (versionBefore T {} tags i) := by
  cases i with
  | zero => exact empty
  | succ i =>
      rw [versionBefore]
      cases there : tags[i]? with
      | none => exact empty
      | some tag => exact each tag (List.mem_of_getElem? there)

/-- Whatever the orders, two diff files between two versions have the same records. -/
theorem rendering_perm (order order' : Enumeration) (distinct : t.Distinct) (distinct' : u.Distinct) :
    ∃ records records' : List Record, records.Perm records' ∧
      rendering order t u = Record.writeAll records ∧
      rendering order' t u = Record.writeAll records' :=
  ⟨_, _, (order.records_met_perm distinct distinct').trans
    (order'.records_met_perm distinct distinct').symm, rfl, rfl⟩

/-- Without ids that clash there is one diff file between two versions. -/
theorem rendering_eq (order order' : Enumeration) (distinct : t.Distinct) (distinct' : u.Distinct)
    (clear : t.Clear) (clear' : u.Clear) : rendering order t u = rendering order' t u := by
  rw [rendering, rendering, order.diff_met distinct distinct' clear clear',
    order'.diff_met distinct distinct' clear clear']

end Comparison

end SymbolHistory
