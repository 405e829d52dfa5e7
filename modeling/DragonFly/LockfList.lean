import DragonFly.IntervalMap
import DragonFly.LockfModel

/-!
# Lists of lock ranges

The list of a lock structure holds the ranges of all owners, sorted by their
start.  What an owner holds is read off its own part of the list; a range is
found in the list by its identity.
-/

namespace DragonFly.AdvLock

open List

/-- The ranges of an owner, and those of all others. -/
def ownRanges (owner : ℕ) (list : List LockfRange) : List LockfRange :=
  list.filter fun range => range.lfOwner = owner

def otherRanges (owner : ℕ) (list : List LockfRange) : List LockfRange :=
  list.filter fun range => range.lfOwner ≠ owner

/-- The bytes of a range, with what the owner holds there. -/
def LockfRange.interval (range : LockfRange) : Interval (LockType × Bool) :=
  ⟨range.lfStart, range.lfEnd, (range.lfType, range.lfPosix)⟩

def LockfRange.key (range : LockfRange) : ℤ × ℕ :=
  (range.lfStart, range.lfId)

/-- Sorted by start, with distinct identities below `bound`. -/
structure Tidy (bound : ℕ) (list : List LockfRange) : Prop where
  sorted : list.Pairwise fun a b => a.lfStart ≤ b.lfStart
  distinct : list.Pairwise fun a b => a.lfId ≠ b.lfId
  bounded : ∀ a ∈ list, a.lfId < bound

def posixTotal (list : List LockfRange) : ℤ :=
  (list.map posixCount).sum

/-! ## Parts of a list -/

variable {owner : ℕ}

@[simp] theorem ownRanges_append (xs ys : List LockfRange) :
    ownRanges owner (xs ++ ys) = ownRanges owner xs ++ ownRanges owner ys :=
  filter_append xs ys

@[simp] theorem otherRanges_append (xs ys : List LockfRange) :
    otherRanges owner (xs ++ ys) = otherRanges owner xs ++ otherRanges owner ys :=
  filter_append xs ys

variable {range elm : LockfRange} {list list' xs ys : List LockfRange} {bound id : ℕ}
  {f : LockfRange → LockfRange}

@[simp] theorem ownRanges_cons_own (h : range.lfOwner = owner) (xs : List LockfRange) :
    ownRanges owner (range :: xs) = range :: ownRanges owner xs := by
  simp [ownRanges, h]

@[simp] theorem ownRanges_cons_other (h : range.lfOwner ≠ owner) (xs : List LockfRange) :
    ownRanges owner (range :: xs) = ownRanges owner xs := by
  simp [ownRanges, h]

@[simp] theorem otherRanges_cons_own (h : range.lfOwner = owner) (xs : List LockfRange) :
    otherRanges owner (range :: xs) = otherRanges owner xs := by
  simp [otherRanges, h]

@[simp] theorem otherRanges_cons_other (h : range.lfOwner ≠ owner) (xs : List LockfRange) :
    otherRanges owner (range :: xs) = range :: otherRanges owner xs := by
  simp [otherRanges, h]

theorem mem_ownRanges : range ∈ ownRanges owner list ↔ range ∈ list ∧ range.lfOwner = owner := by
  simp [ownRanges]

theorem ownRanges_of_otherRanges (hne : other ≠ owner)
    (h : otherRanges owner list' = otherRanges owner list) :
    ownRanges other list' = ownRanges other list := by
  have hpart : ∀ xs : List LockfRange,
      ownRanges other xs = ownRanges other (otherRanges owner xs) := by
    intro xs
    unfold ownRanges otherRanges
    rw [filter_filter]
    apply filter_congr
    intro range _
    by_cases hrange : range.lfOwner = other
    · simp [hrange, hne]
    · simp [hrange]
  rw [hpart list', hpart list, h]

@[simp] theorem posixTotal_append (xs ys : List LockfRange) :
    posixTotal (xs ++ ys) = posixTotal xs + posixTotal ys := by
  simp [posixTotal]

@[simp] theorem posixTotal_cons (range : LockfRange) (xs : List LockfRange) :
    posixTotal (range :: xs) = posixCount range + posixTotal xs := by
  simp [posixTotal]

@[simp] theorem posixTotal_nil : posixTotal [] = 0 := rfl

/-! ## Tidy lists -/

theorem Tidy.sublist (h : Tidy bound list) (hsub : List.Sublist list' list) : Tidy bound list' :=
  ⟨h.sorted.sublist hsub, h.distinct.sublist hsub, fun a ha => h.bounded a (hsub.subset ha)⟩

theorem Tidy.congr
    (h : Tidy bound list) (hkeys : list'.map LockfRange.key = list.map LockfRange.key) :
    Tidy bound list' := by
  have hsorted : ∀ xs : List LockfRange, (xs.map LockfRange.key).Pairwise (fun a b => a.1 ≤ b.1) ↔
        xs.Pairwise fun a b => a.lfStart ≤ b.lfStart := by
    intro xs
    rw [pairwise_map]
    rfl
  have hdistinct : ∀ xs : List LockfRange, (xs.map LockfRange.key).Pairwise (fun a b => a.2 ≠ b.2) ↔
        xs.Pairwise fun a b => a.lfId ≠ b.lfId := by
    intro xs
    rw [pairwise_map]
    rfl
  constructor
  · rw [← hsorted, hkeys, hsorted]
    exact h.sorted
  · rw [← hdistinct, hkeys, hdistinct]
    exact h.distinct
  · intro a ha
    have hmem : a.key ∈ list.map LockfRange.key := by
      rw [← hkeys]
      exact mem_map_of_mem ha
    obtain ⟨b, hb, heq⟩ := mem_map.mp hmem
    have hid : b.lfId = a.lfId := congrArg Prod.snd heq
    rw [← hid]
    exact h.bounded b hb

theorem Tidy.id_ne (h : Tidy bound (xs ++ range :: ys)) :
    (∀ a ∈ xs, a.lfId ≠ range.lfId) ∧ ∀ a ∈ ys, a.lfId ≠ range.lfId := by
  have hpairs := h.distinct
  rw [pairwise_append, pairwise_cons] at hpairs
  constructor
  · intro a ha
    exact hpairs.2.2 a ha range (by simp)
  · intro a ha
    exact (hpairs.2.1.1 a ha).symm

theorem Tidy.start_le (h : Tidy bound (xs ++ range :: ys)) :
    (∀ a ∈ xs, a.lfStart ≤ range.lfStart) ∧ ∀ a ∈ ys, range.lfStart ≤ a.lfStart := by
  have hpairs := h.sorted
  rw [pairwise_append, pairwise_cons] at hpairs
  constructor
  · intro a ha
    exact hpairs.2.2 a ha range (by simp)
  · intro a ha
    exact hpairs.2.1.1 a ha

/-! ## Finding, removing and changing an element -/

theorem tailqSplit_eq (hxs : ∀ a ∈ xs, a.lfId ≠ id) (hrange : range.lfId = id) :
    tailqSplit id (xs ++ range :: ys) = (xs, range :: ys) := by
  unfold tailqSplit
  rw [takeWhile_append_of_pos (by simpa using hxs),
    dropWhile_append_of_pos (by simpa using hxs)]
  simp [hrange]

theorem tailqRemove_eq_self (h : ∀ a ∈ list, a.lfId ≠ id) : tailqRemove id list = list := by
  unfold tailqRemove
  rw [filter_eq_self]
  simpa using h

theorem tailqRemove_middle
    (hxs : ∀ a ∈ xs, a.lfId ≠ id) (hrange : range.lfId = id) (hys : ∀ a ∈ ys, a.lfId ≠ id) :
    tailqRemove id (xs ++ range :: ys) = xs ++ ys := by
  have hsplit : tailqRemove id (xs ++ range :: ys) = tailqRemove id xs ++ tailqRemove id ys := by
    simp [tailqRemove, hrange]
  rw [hsplit, tailqRemove_eq_self hxs, tailqRemove_eq_self hys]

theorem tailqModify_eq_self
    (f : LockfRange → LockfRange) (h : ∀ a ∈ list, a.lfId ≠ id) : tailqModify id f list = list := by
  unfold tailqModify
  rw [map_congr_left (g := fun range => range)]
  · exact map_id _
  · intro a ha
    rw [if_neg (h a ha)]

theorem tailqModify_middle
    (f : LockfRange → LockfRange) (hxs : ∀ a ∈ xs, a.lfId ≠ id) (hrange : range.lfId = id)
    (hys : ∀ a ∈ ys, a.lfId ≠ id) : tailqModify id f (xs ++ range :: ys) = xs ++ f range :: ys := by
  have hsplit : tailqModify id f (xs ++ range :: ys) =
      tailqModify id f xs ++ f range :: tailqModify id f ys := by
    simp [tailqModify, hrange]
  rw [hsplit, tailqModify_eq_self f hxs, tailqModify_eq_self f hys]

theorem Tidy.eq_of_id (h : Tidy bound list) (ha : a ∈ list) (hb : b ∈ list)
    (hid : a.lfId = b.lfId) :
    a = b := by
  by_contra hne
  have hsymm : Std.Symm fun a b : LockfRange => a.lfId ≠ b.lfId := ⟨fun _ _ hab => hab.symm⟩
  exact h.distinct.forall ha hb hne hid

theorem ownRanges_tailqModify (hf : ∀ a, (f a).lfOwner = a.lfOwner) (list : List LockfRange) :
    ownRanges owner (tailqModify id f list) = tailqModify id f (ownRanges owner list) := by
  unfold ownRanges tailqModify
  rw [filter_map]
  congr 1
  apply filter_congr
  intro a _
  simp only [Function.comp_apply]
  split_ifs
  · rw [hf]
  · rfl

theorem otherRanges_tailqModify
    (hf : ∀ a, (f a).lfOwner = a.lfOwner) (hown : ∀ a ∈ list, a.lfId = id → a.lfOwner = owner) :
    otherRanges owner (tailqModify id f list) = otherRanges owner list := by
  have hcomm : otherRanges owner (tailqModify id f list) =
      tailqModify id f (otherRanges owner list) := by
    unfold otherRanges tailqModify
    rw [filter_map]
    congr 1
    apply filter_congr
    intro a _
    simp only [Function.comp_apply]
    split_ifs
    · rw [hf]
    · rfl
  rw [hcomm]
  apply tailqModify_eq_self
  intro a ha hid
  simp only [otherRanges, mem_filter, decide_eq_true_eq] at ha
  exact ha.2 (hown a ha.1 hid)

theorem map_key_tailqModify (hf : ∀ a, (f a).key = a.key) (list : List LockfRange) :
    (tailqModify id f list).map LockfRange.key = list.map LockfRange.key := by
  unfold tailqModify
  rw [map_map]
  apply map_congr_left
  intro a _
  simp only [Function.comp_apply]
  split_ifs
  · exact hf a
  · rfl

theorem ownRanges_tailqRemove (id : ℕ) (list : List LockfRange) :
    ownRanges owner (tailqRemove id list) = tailqRemove id (ownRanges owner list) := by
  unfold ownRanges tailqRemove
  rw [filter_filter, filter_filter]
  apply filter_congr
  intro a _
  rw [Bool.and_comm]

theorem otherRanges_tailqRemove (hown : ∀ a ∈ list, a.lfId = id → a.lfOwner = owner) :
    otherRanges owner (tailqRemove id list) = otherRanges owner list := by
  unfold otherRanges tailqRemove
  rw [filter_filter]
  apply filter_congr
  intro a ha
  by_cases hid : a.lfId = id
  · simp [hid, hown a ha hid]
  · simp [hid]

/-! ## Inserting -/

theorem insertFrom_append (h : ∀ a ∈ xs, a.lfStart < elm.lfStart) (ys : List LockfRange) :
    insertFrom elm (xs ++ ys) = xs ++ insertFrom elm ys := by
  induction xs with
  | nil => rfl
  | cons a xs ih =>
    rw [cons_append, insertFrom, if_pos (h a (by simp)),
      ih fun b hb => h b (by simp [hb]), cons_append]

theorem insertFrom_split
    (elm : LockfRange) (hsorted : list.Pairwise fun a b => a.lfStart ≤ b.lfStart) :
    ∃ xs ys, list = xs ++ ys ∧ insertFrom elm list = xs ++ elm :: ys ∧
      (∀ a ∈ xs, a.lfStart < elm.lfStart) ∧
      ∀ a ∈ ys, elm.lfStart ≤ a.lfStart := by
  induction list with
  | nil => exact ⟨[], [], rfl, rfl, by simp, by simp⟩
  | cons range rest ih =>
    rw [pairwise_cons] at hsorted
    by_cases hlt : range.lfStart < elm.lfStart
    · obtain ⟨xs, ys, hlist, hinsert, hxs, hys⟩ := ih hsorted.2
      refine ⟨range :: xs, ys, ?_, ?_, ?_, hys⟩
      · rw [hlist, cons_append]
      · rw [insertFrom, if_pos hlt, hinsert, cons_append]
      · intro a ha
        rcases mem_cons.mp ha with rfl | ha
        · exact hlt
        · exact hxs a ha
    · refine ⟨[], range :: rest, rfl, ?_, by simp, ?_⟩
      · rw [insertFrom, if_neg hlt]
        rfl
      · intro a ha
        rcases mem_cons.mp ha with rfl | ha
        · omega
        · have hle := hsorted.1 a ha
          omega

theorem insertFrom_between
    (hxs : ∀ a ∈ xs, a.lfStart < elm.lfStart) (hys : ∀ a ∈ ys, elm.lfStart ≤ a.lfStart) :
    insertFrom elm (xs ++ ys) = xs ++ elm :: ys := by
  rw [insertFrom_append hxs]
  cases ys with
  | nil => rfl
  | cons a ys =>
    have hle := hys a (by simp)
    rw [insertFrom, if_neg (by omega)]

theorem ownRanges_insertFrom
    (howner : elm.lfOwner = owner) (hsorted : list.Pairwise fun a b => a.lfStart ≤ b.lfStart) :
    ownRanges owner (insertFrom elm list) = insertFrom elm (ownRanges owner list) := by
  obtain ⟨xs, ys, rfl, hinsert, hxs, hys⟩ := insertFrom_split elm hsorted
  rw [hinsert, ownRanges_append, ownRanges_cons_own howner, ownRanges_append, insertFrom_between]
  · exact fun a ha => hxs a (mem_ownRanges.mp ha).1
  · exact fun a ha => hys a (mem_ownRanges.mp ha).1

theorem otherRanges_insertFrom
    (howner : elm.lfOwner = owner) (hsorted : list.Pairwise fun a b => a.lfStart ≤ b.lfStart) :
    otherRanges owner (insertFrom elm list) = otherRanges owner list := by
  obtain ⟨xs, ys, rfl, hinsert, -, -⟩ := insertFrom_split elm hsorted
  rw [hinsert, otherRanges_append, otherRanges_cons_own howner, otherRanges_append]

theorem Tidy.insertFrom (h : Tidy bound list) (hid : ∀ a ∈ list, a.lfId ≠ elm.lfId)
    (hbound : elm.lfId < bound) : Tidy bound (insertFrom elm list) := by
  obtain ⟨xs, ys, rfl, hinsert, hxs, hys⟩ := insertFrom_split elm h.sorted
  rw [hinsert]
  have hsorted := h.sorted
  have hdistinct := h.distinct
  rw [pairwise_append] at hsorted hdistinct
  constructor
  · rw [pairwise_append, pairwise_cons]
    refine ⟨hsorted.1, ⟨hys, hsorted.2.1⟩, ?_⟩
    intro a ha b hb
    rcases mem_cons.mp hb with rfl | hb
    · exact (hxs a ha).le
    · exact hsorted.2.2 a ha b hb
  · rw [pairwise_append, pairwise_cons]
    refine ⟨hdistinct.1, ⟨?_, hdistinct.2.1⟩, ?_⟩
    · intro a ha
      exact (hid a (by simp [ha])).symm
    · intro a ha b hb
      rcases mem_cons.mp hb with rfl | hb
      · exact hid a (by simp [ha])
      · exact hdistinct.2.2 a ha b hb
  · intro a ha
    rcases mem_append.mp ha with ha | ha
    · exact h.bounded a (by simp [ha])
    · rcases mem_cons.mp ha with rfl | ha
      · exact hbound
      · exact h.bounded a (by simp [ha])

theorem lfInsert_eq
    (h : match point with
      | none => ∀ a ∈ list, a.lfStart < elm.lfStart
      | some id => ∃ xs range ys, list = xs ++ range :: ys ∧
          range.lfId = id ∧ (∀ a ∈ xs, a.lfId ≠ id) ∧
          ∀ a ∈ xs, a.lfStart < elm.lfStart) : lfInsert list elm point = insertFrom elm list := by
  cases point with
  | none =>
    have happend := insertFrom_append h []
    rw [append_nil] at happend
    rw [happend]
    rfl
  | some id =>
    obtain ⟨xs, range, ys, rfl, hid, hxs, hlow⟩ := h
    simp only [lfInsert]
    rw [tailqSplit_eq hxs hid, insertFrom_append hlow]

theorem append_cons_injective (hxs : ∀ a ∈ xs, a.lfId ≠ range.lfId)
    (hxs' : ∀ a ∈ xs', a.lfId ≠ range.lfId) (h : xs ++ range :: ys = xs' ++ range :: ys') :
    xs = xs' ∧ ys = ys' := by
  have hsplit : tailqSplit range.lfId (xs ++ range :: ys) =
      (xs, range :: ys) := tailqSplit_eq hxs rfl
  rw [h, tailqSplit_eq hxs' rfl, Prod.mk.injEq, List.cons.injEq] at hsplit
  exact ⟨hsplit.1.symm, hsplit.2.2.symm⟩

theorem Tidy.split_own (h : Tidy bound list) (hown : ownRanges owner list = pre ++ range :: post) :
    ∃ xs ys, list = xs ++ range :: ys ∧ ownRanges owner xs = pre ∧ ownRanges owner ys = post ∧
      tailqSplit range.lfId list = (xs, range :: ys) := by
  have hmem : range ∈ list ∧ range.lfOwner = owner := by
    apply mem_ownRanges.mp
    rw [hown]
    simp
  obtain ⟨xs, ys, rfl⟩ := append_of_mem hmem.1
  have hpre : ∀ a ∈ pre, a.lfId ≠ range.lfId := by
    have hsub : List.Sublist (pre ++ range :: post) (xs ++ range :: ys) := by
      rw [← hown]
      exact filter_sublist
    exact (h.sublist hsub).id_ne.1
  have hxs : ∀ a ∈ ownRanges owner xs, a.lfId ≠ range.lfId :=
    fun a ha => h.id_ne.1 a (mem_ownRanges.mp ha).1
  rw [ownRanges_append, ownRanges_cons_own hmem.2] at hown
  obtain ⟨hleft, hright⟩ := append_cons_injective hxs hpre hown
  exact ⟨xs, ys, rfl, hleft, hright, tailqSplit_eq h.id_ne.1 rfl⟩

theorem Tidy.find_id (h : Tidy bound list) (hrange : range ∈ list) :
    list.find? (fun a => a.lfId = range.lfId) = some range := by
  cases hfind : list.find? fun a => a.lfId = range.lfId with
  | none =>
    have hnone := find?_eq_none.mp hfind range hrange
    simp at hnone
  | some a =>
    have hid := find?_some hfind
    rw [decide_eq_true_eq] at hid
    rw [h.eq_of_id (mem_of_find?_eq_some hfind) hrange hid]

end DragonFly.AdvLock
