/-
# Proofs.SelectedTags -- which tags are selected, and in which order

Tags are sorted by inserting them one by one, so the result is a rearrangement
of what was given, whatever the order says (`sort_perm`).  Names decide every tie,
so tags with distinct names compare one way or the other (`before_or_before`), and
where the order of their names is transitive there is only one list that is in
order (`sort_eq_of_perm`).  That is an assumption about the names: natural order
goes in a circle on some.

Of the sorted tags `firstOfKeys` keeps the first of every key.  What it keeps is
`Keyed`: every tag has a key and no key stands twice, and it leaves such a list
alone (`firstOfKeys_of_keyed`).
-/
import SymbolHistory.Proofs.NaturalOrder
import SymbolHistory.Tag

set_option autoImplicit false

namespace SymbolHistory

namespace NaturalOrder

theorem orderStrict_swap (a b : Bytes) : orderStrict b a = (orderStrict a b).swap := by
  unfold orderStrict
  rw [order_swap a b]
  cases order a b with
  | eq => exact Bytes.order_swap a b
  | lt => rfl
  | gt => rfl

theorem eq_of_orderStrict_eq {a b : Bytes} (same : orderStrict a b = .eq) : a = b := by
  unfold orderStrict at same
  cases natural : order a b with
  | eq =>
      rw [natural] at same
      exact Bytes.eq_of_order_eq same
  | lt => rw [natural] at same; cases same
  | gt => rw [natural] at same; cases same

end NaturalOrder

namespace TagOrder

open NaturalOrder (orderStrict)

/-- The order of the names of some tags is transitive. -/
def Clear (tags : List Tag) : Prop :=
  ∀ a ∈ tags, ∀ b ∈ tags, ∀ c ∈ tags, orderStrict a.name b.name = .lt →
    orderStrict b.name c.name = .lt → orderStrict a.name c.name = .lt

instance (tags : List Tag) : Decidable (Clear tags) :=
  inferInstanceAs (Decidable (∀ a ∈ tags, ∀ b ∈ tags, ∀ c ∈ tags, _ → _ → _))

theorem Clear.subset {tags some : List Tag} (clear : Clear tags) (subset : some ⊆ tags) :
    Clear some :=
  fun a inA b inB c inC => clear a (subset inA) b (subset inB) c (subset inC)

variable {o : TagOrder} {a b c : Tag}

theorem before_natural : natural.before a b = true ↔ orderStrict a.name b.name = .lt := by
  simp [before]

/-- By time, names decide between tags of one time. -/
theorem before_time : time.before a b = true ↔
    a.time < b.time ∨ a.time = b.time ∧ orderStrict a.name b.name = .lt := by
  by_cases same : a.time = b.time
  · simp [before, same]
  · simp [before, same]

theorem before_asymm (ahead : o.before a b = true) : o.before b a = false := by
  have names : orderStrict a.name b.name = .lt → orderStrict b.name a.name ≠ .lt := by
    intro less
    rw [NaturalOrder.orderStrict_swap a.name b.name, less]
    exact nofun
  rw [← Bool.not_eq_true]
  cases o with
  | natural =>
      rw [before_natural] at ahead ⊢
      exact names ahead
  | time =>
      rw [before_time] at ahead ⊢
      rintro (less | ⟨same, less⟩)
      · omega
      · rcases ahead with more | ⟨-, ahead⟩
        · omega
        · exact names ahead less

/-- Of two tags with different names one comes before the other. -/
theorem before_or_before (different : a.name ≠ b.name) :
    o.before a b = true ∨ o.before b a = true := by
  have names : orderStrict a.name b.name = .lt ∨ orderStrict b.name a.name = .lt := by
    rw [NaturalOrder.orderStrict_swap a.name b.name]
    cases way : orderStrict a.name b.name with
    | lt => exact .inl rfl
    | gt => exact .inr rfl
    | eq => exact absurd (NaturalOrder.eq_of_orderStrict_eq way) different
  cases o with
  | natural =>
      rw [before_natural, before_natural]
      exact names
  | time =>
      rw [before_time, before_time]
      rcases Int.lt_trichotomy a.time b.time with less | same | more
      · exact .inl (.inl less)
      · exact names.imp (fun less => .inr ⟨same, less⟩) fun less => .inr ⟨same.symm, less⟩
      · exact .inr (.inl more)

theorem Clear.before_trans {tags : List Tag} (clear : Clear tags) (inA : a ∈ tags) (inB : b ∈ tags)
    (inC : c ∈ tags) (first : o.before a b = true) (second : o.before b c = true) :
    o.before a c = true := by
  have names := clear a inA b inB c inC
  cases o with
  | natural =>
      rw [before_natural] at first second ⊢
      exact names first second
  | time =>
      rw [before_time] at first second ⊢
      rcases first with less | ⟨same, less⟩
      · rcases second with less' | ⟨same', -⟩
        · exact .inl (by omega)
        · exact .inl (by omega)
      · rcases second with less' | ⟨same', less'⟩
        · exact .inl (by omega)
        · exact .inr ⟨by omega, names less less'⟩

end TagOrder

namespace Tag

variable {o : TagOrder} {tags : List Tag}

/-! ## Sorting -/

theorem insert_perm (o : TagOrder) (x : Tag) (tags : List Tag) : (insert o x tags).Perm (x :: tags) := by
  induction tags with
  | nil => exact .refl _
  | cons y rest ih =>
      rw [insert]
      split
      · exact (ih.cons y).trans (.swap x y rest)
      · exact .refl _

theorem foldl_insert_perm (o : TagOrder) (tags : List Tag) :
    ∀ sorted, (tags.foldl (fun sorted t => insert o t sorted) sorted).Perm (tags ++ sorted) := by
  induction tags with
  | nil => exact fun sorted => .refl _
  | cons t tags ih =>
      intro sorted
      exact (ih _).trans (((insert_perm o t sorted).append_left tags).trans List.perm_middle)

/-- No tag gets lost and none is added, whatever the order. -/
theorem sort_perm (o : TagOrder) (tags : List Tag) : (sort o tags).Perm tags := by
  have folded := foldl_insert_perm o tags []
  rw [List.append_nil] at folded
  exact (List.reverse_perm _).trans folded

/-- Every tag comes before all that stand behind it. -/
def InOrder (o : TagOrder) (tags : List Tag) : Prop := tags.Pairwise fun a b => o.before a b = true

/-- While tags are being sorted they stand last first. -/
theorem insert_inOrder {x : Tag} {sorted : List Tag} (clear : TagOrder.Clear (x :: sorted))
    (distinct : ∀ y ∈ sorted, x.name ≠ y.name) (before : InOrder o sorted.reverse) :
    InOrder o (insert o x sorted).reverse := by
  unfold InOrder at before ⊢
  rw [List.pairwise_reverse] at before ⊢
  induction sorted with
  | nil => exact List.pairwise_singleton _ _
  | cons y rest ih =>
      obtain ⟨first, later⟩ := List.pairwise_cons.mp before
      rw [insert]
      split
      · rename_i ahead
        have inserted := ih (clear.subset (by simp)) (fun z member => distinct z (by simp [member])) later
        refine .cons ?_ inserted
        intro z member
        rcases List.mem_cons.mp ((insert_perm o x rest).subset member) with rfl | old
        · exact ahead
        · exact first z old
      · rename_i behind
        have next : o.before y x = true :=
          (TagOrder.before_or_before (distinct y (by simp))).resolve_left behind
        refine .cons ?_ before
        intro z member
        rcases List.mem_cons.mp member with rfl | old
        · exact next
        · exact clear.before_trans (by simp [old]) (by simp) (by simp) (first z old) next

theorem foldl_insert_inOrder (tags : List Tag) :
    ∀ sorted, TagOrder.Clear (tags ++ sorted) → ((tags ++ sorted).map Tag.name).Nodup →
      InOrder o sorted.reverse →
      InOrder o (tags.foldl (fun sorted t => insert o t sorted) sorted).reverse := by
  induction tags with
  | nil => exact fun sorted _ _ before => before
  | cons t tags ih =>
      intro sorted clear distinct before
      have moved : (tags ++ insert o t sorted).Perm (t :: tags ++ sorted) :=
        ((insert_perm o t sorted).append_left tags).trans List.perm_middle
      have own : ∀ y ∈ sorted, t.name ≠ y.name := by
        intro y member same
        rw [List.cons_append, List.map_cons, List.nodup_cons] at distinct
        exact distinct.1 (List.mem_map.mpr ⟨y, by simp [member], same.symm⟩)
      apply ih
      · exact clear.subset moved.subset
      · exact (moved.map Tag.name).nodup_iff.mpr distinct
      · exact insert_inOrder (clear.subset (by simp)) own before

/-- Tags with distinct names come into order if the order of their names is one. -/
theorem sort_inOrder (clear : TagOrder.Clear tags) (distinct : (tags.map Tag.name).Nodup) :
    InOrder o (sort o tags) := by
  apply foldl_insert_inOrder tags []
  · rwa [List.append_nil]
  · rwa [List.append_nil]
  · exact .nil

/-- There is only one way to put tags in order. -/
theorem InOrder.eq_of_perm {sorted : List Tag} (first : InOrder o tags) (second : InOrder o sorted)
    (perm : tags.Perm sorted) : tags = sorted := by
  refine List.Perm.eq_of_pairwise (fun a b _ _ forth back => ?_) first second perm
  rw [TagOrder.before_asymm forth] at back
  cases back

/-- The order in which tags are listed does not matter. -/
theorem sort_eq_of_perm {tags' : List Tag} (clear : TagOrder.Clear tags)
    (distinct : (tags.map Tag.name).Nodup) (perm : tags'.Perm tags) : sort o tags' = sort o tags := by
  have first : InOrder o (sort o tags') :=
    sort_inOrder (clear.subset perm.subset) ((perm.map Tag.name).nodup_iff.mpr distinct)
  exact first.eq_of_perm (sort_inOrder clear distinct)
    ((sort_perm o tags').trans (perm.trans (sort_perm o tags).symm))

/-- Tags that are in order stay as they are. -/
theorem sort_of_inOrder (clear : TagOrder.Clear tags) (distinct : (tags.map Tag.name).Nodup)
    (inOrder : InOrder o tags) : sort o tags = tags :=
  (sort_inOrder clear distinct).eq_of_perm inOrder (sort_perm o tags)

/-! ## The first tag of every key -/

section

variable {key : Bytes → Option Bytes} {seen : List Bytes} {t : Tag} {k : Bytes}

theorem firstOfKeys_none (none : key t.name = Option.none) (seen : List Bytes) (rest : List Tag) :
    firstOfKeys key seen (t :: rest) = firstOfKeys key seen rest := by
  rw [firstOfKeys, none]

theorem firstOfKeys_seen (isKey : key t.name = some k) (old : k ∈ seen) (rest : List Tag) :
    firstOfKeys key seen (t :: rest) = firstOfKeys key seen rest := by
  rw [firstOfKeys, isKey]
  simp [old]

theorem firstOfKeys_new (isKey : key t.name = some k) (new : k ∉ seen) (rest : List Tag) :
    firstOfKeys key seen (t :: rest) = t :: firstOfKeys key (k :: seen) rest := by
  rw [firstOfKeys, isKey]
  simp [new]

/-- Every tag has a key, none of those seen, and no key stands twice. -/
structure Keyed (key : Bytes → Option Bytes) (seen : List Bytes) (tags : List Tag) : Prop where
  has : ∀ t ∈ tags, ∃ k, key t.name = some k ∧ k ∉ seen
  apart : tags.Pairwise fun s t => key s.name ≠ key t.name

theorem Keyed.cons (isKey : key t.name = some k) (new : k ∉ seen) {rest : List Tag}
    (keyed : Keyed key (k :: seen) rest) : Keyed key seen (t :: rest) where
  has := by
    refine List.forall_mem_cons.mpr ⟨⟨k, isKey, new⟩, fun u member => ?_⟩
    obtain ⟨k', isKey', new'⟩ := keyed.has u member
    exact ⟨k', isKey', fun old => new' (List.mem_cons_of_mem _ old)⟩
  apart := by
    refine .cons (fun u member same => ?_) keyed.apart
    obtain ⟨k', isKey', new'⟩ := keyed.has u member
    rw [isKey, isKey', Option.some.injEq] at same
    exact new' (same ▸ List.mem_cons_self)

theorem firstOfKeys_sublist (key : Bytes → Option Bytes) (tags : List Tag) :
    ∀ seen, (firstOfKeys key seen tags).Sublist tags := by
  induction tags with
  | nil => exact fun seen => .refl _
  | cons t rest ih =>
      intro seen
      cases isKey : key t.name with
      | none =>
          rw [firstOfKeys_none isKey]
          exact (ih seen).cons t
      | some k =>
          by_cases old : k ∈ seen
          · rw [firstOfKeys_seen isKey old]
            exact (ih seen).cons t
          · rw [firstOfKeys_new isKey old]
            exact (ih (k :: seen)).cons_cons t

theorem firstOfKeys_keyed (key : Bytes → Option Bytes) (tags : List Tag) :
    ∀ seen, Keyed key seen (firstOfKeys key seen tags) := by
  induction tags with
  | nil => exact fun seen => ⟨nofun, .nil⟩
  | cons t rest ih =>
      intro seen
      cases isKey : key t.name with
      | none =>
          rw [firstOfKeys_none isKey]
          exact ih seen
      | some k =>
          by_cases old : k ∈ seen
          · rw [firstOfKeys_seen isKey old]
            exact ih seen
          · rw [firstOfKeys_new isKey old]
            exact (ih (k :: seen)).cons isKey old

/-- Where no key stands twice nothing is left out. -/
theorem firstOfKeys_of_keyed {tags : List Tag} :
    ∀ {seen}, Keyed key seen tags → firstOfKeys key seen tags = tags := by
  induction tags with
  | nil => exact fun _ => rfl
  | cons t rest ih =>
      intro seen keyed
      obtain ⟨k, isKey, new⟩ := keyed.has t List.mem_cons_self
      obtain ⟨apart, later⟩ := List.pairwise_cons.mp keyed.apart
      rw [firstOfKeys_new isKey new, ih]
      refine ⟨fun u member => ?_, later⟩
      obtain ⟨k', isKey', new'⟩ := keyed.has u (List.mem_cons_of_mem _ member)
      refine ⟨k', isKey', ?_⟩
      rw [List.mem_cons, not_or]
      refine ⟨?_, new'⟩
      rintro rfl
      exact apart u member (isKey.trans isKey'.symm)

/-- The tag that a key is left with is the first that has it. -/
theorem filter_firstOfKeys (key : Bytes → Option Bytes) (k : Bytes) (tags : List Tag) :
    ∀ seen, k ∉ seen → (firstOfKeys key seen tags).filter (fun t => key t.name == some k) =
      (tags.find? fun t => key t.name == some k).toList := by
  induction tags with
  | nil => exact fun seen _ => rfl
  | cons t rest ih =>
      intro seen new
      cases isKey : key t.name with
      | none =>
          rw [firstOfKeys_none isKey, ih seen new, List.find?_cons_of_neg (by simp [isKey])]
      | some k' =>
          by_cases same : k' = k
          · subst same
            have others : ∀ u ∈ firstOfKeys key (k' :: seen) rest, ¬(key u.name == some k') = true := by
              intro u member isSame
              obtain ⟨k'', isKey', apart⟩ := (firstOfKeys_keyed key rest (k' :: seen)).has u member
              rw [isKey', beq_iff_eq, Option.some.injEq] at isSame
              exact apart (isSame ▸ List.mem_cons_self)
            rw [firstOfKeys_new isKey new, List.filter_cons_of_pos (by simp [isKey]),
              List.filter_eq_nil_iff.mpr others, List.find?_cons_of_pos (by simp [isKey])]
            rfl
          · rw [List.find?_cons_of_neg (by simp [isKey, same])]
            by_cases old : k' ∈ seen
            · rw [firstOfKeys_seen isKey old, ih seen new]
            · rw [firstOfKeys_new isKey old, List.filter_cons_of_neg (by simp [isKey, same])]
              exact ih (k' :: seen) (by simp [new, Ne.symm same])

end

/-! ## Selecting -/

theorem select_sublist (key : Option (Bytes → Option Bytes)) (o : TagOrder) (tags : List Tag) :
    (select key o tags).Sublist (sort o tags) := by
  cases key with
  | none => exact .refl _
  | some key => exact firstOfKeys_sublist key _ []

/-- What was selected is selected again. -/
theorem select_select (key : Option (Bytes → Option Bytes)) (clear : TagOrder.Clear tags)
    (distinct : (tags.map Tag.name).Nodup) :
    select key o (select key o tags) = select key o tags := by
  have sublist := select_sublist key o tags
  have subset : select key o tags ⊆ tags :=
    List.Subset.trans sublist.subset (sort_perm o tags).subset
  have distinct' : ((select key o tags).map Tag.name).Nodup :=
    ((((sort_perm o tags).map Tag.name).nodup_iff.mpr distinct).sublist (sublist.map Tag.name))
  have sorted : sort o (select key o tags) = select key o tags :=
    sort_of_inOrder (clear.subset subset) distinct' ((sort_inOrder clear distinct).sublist sublist)
  cases key with
  | none => exact sorted
  | some key =>
      have again : select (some key) o (select (some key) o tags) =
          firstOfKeys key [] (sort o (select (some key) o tags)) := rfl
      rw [again, sorted]
      exact firstOfKeys_of_keyed (firstOfKeys_keyed key (sort o tags) [])

/-- The tags selected are the sorted tags if there is no pattern.  With a pattern they are some of
them, in the same order: for each key that is found in a name, the first tag that has it, and no tag
without a key.  If the order of the names is transitive, the tags are sorted strictly, the result
does not depend on how they were listed, and selecting from the result changes nothing. -/
theorem select_first_of_keys (o : TagOrder) (tags : List Tag) (distinct : (tags.map Tag.name).Nodup) :
    (sort o tags).Perm tags ∧
    select none o tags = sort o tags ∧
    (∀ key, (select (some key) o tags).Sublist (sort o tags) ∧
      (∀ t ∈ select (some key) o tags, key t.name ≠ none) ∧
      ∀ t ∈ tags, ∀ k, key t.name = some k → ∃ first,
        (sort o tags).find? (fun u => key u.name == some k) = some first ∧
        (select (some key) o tags).filter (fun u => key u.name == some k) = [first]) ∧
    (TagOrder.Clear tags →
      (sort o tags).Pairwise (fun a b => o.before a b = true) ∧
      ∀ key, (∀ tags', tags'.Perm tags → select key o tags' = select key o tags) ∧
        select key o (select key o tags) = select key o tags) := by
  refine ⟨sort_perm o tags, rfl, ?_, ?_⟩
  · intro key
    refine ⟨select_sublist (some key) o tags, ?_, ?_⟩
    · intro t member none
      obtain ⟨k, isKey, -⟩ := (firstOfKeys_keyed key (sort o tags) []).has t member
      rw [none] at isKey
      cases isKey
    · intro t member k isKey
      have inside : t ∈ sort o tags := (sort_perm o tags).mem_iff.mpr member
      cases found : (sort o tags).find? (fun u => key u.name == some k) with
      | none =>
          have := List.find?_eq_none.mp found t inside
          simp [isKey] at this
      | some first =>
          refine ⟨first, rfl, ?_⟩
          have left := filter_firstOfKeys key k (sort o tags) [] (by simp)
          rw [found] at left
          exact left
  · intro clear
    refine ⟨sort_inOrder clear distinct, fun key => ⟨fun tags' perm => ?_, select_select key clear distinct⟩⟩
    have sorted : sort o tags' = sort o tags := sort_eq_of_perm clear distinct perm
    cases key with
    | none => exact sorted
    | some key => exact congrArg (firstOfKeys key []) sorted

/-- Releases, one of them with a candidate before it, and a tag that is no release. -/
def releaseTags : List Tag :=
  [{ name := lit "v5.10", time := 4 }, { name := lit "junk" }, { name := lit "v5.0", time := 3 },
    { name := lit "v5.0-rc1", time := 1 }, { name := lit "v5.1", time := 4 }]

/-- What a release and its candidates have in common. -/
def releaseOf (name : Bytes) : Option Bytes :=
  (Pattern.compile (lit "^(v[0-9]+\\.[0-9]+)")).toOption.bind fun p => key p name

theorem select_first_of_keys_releases :
    (releaseTags.map Tag.name).Nodup ∧ TagOrder.Clear releaseTags ∧
      (select (some releaseOf) .time releaseTags.reverse).map Tag.name =
        [lit "v5.0-rc1", lit "v5.1", lit "v5.10"] ∧
      select (some releaseOf) .time (select (some releaseOf) .time releaseTags) =
        select (some releaseOf) .time releaseTags := by
  have distinct : (releaseTags.map Tag.name).Nodup := by decide +kernel
  have clear : TagOrder.Clear releaseTags := by decide +kernel
  obtain ⟨-, -, -, settled⟩ := select_first_of_keys .time releaseTags distinct
  obtain ⟨same, again⟩ := (settled clear).2 (some releaseOf)
  refine ⟨distinct, clear, ?_, again⟩
  rw [same releaseTags.reverse (List.reverse_perm _)]
  decide +kernel

end Tag

end SymbolHistory
