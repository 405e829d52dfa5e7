import DragonFly.HammerMirror

/-!
# What a mirror record does to the target

The tracking cursor is a scan over the sort keys of the target.  Each stream
record first sweeps the scan to the key it starts at, which marks the elements
passed, and then repositions it.  `Written` lists what one record can do; every
result about the writer is derived from it.
-/

namespace DragonFly.Hammer

open List MirrorRecord KeyScan

def treeKeys (tree : List HammerBtreeLeafElm) : List SortKey :=
  tree.map fun elm => elm.base.sortKey

def TreeOrdered (tree : List HammerBtreeLeafElm) : Prop :=
  (treeKeys tree).Pairwise (· < ·)

instance (tree : List HammerBtreeLeafElm) : Decidable (TreeOrdered tree) :=
  inferInstanceAs (Decidable ((treeKeys tree).Pairwise (· < ·)))

def MirrorTarget.scan (target : MirrorTarget) : KeyScan SortKey :=
  ⟨treeKeys (target.tree.drop target.cursor.index), target.cursor.atedisk⟩

/-! ## Editing elements in place -/

def HammerBtreeLeafElm.withDeleteTid (elm : HammerBtreeLeafElm) (deleteTid : ℕ) :
    HammerBtreeLeafElm :=
  { elm with base := { elm.base with deleteTid := deleteTid } }

def editKeys (keys : List SortKey) (edit : HammerBtreeLeafElm → HammerBtreeLeafElm)
    (tree : List HammerBtreeLeafElm) : List HammerBtreeLeafElm :=
  tree.map fun elm => if elm.base.sortKey ∈ keys then edit elm else elm

/-- What the deletion sweep makes of an element it passes. -/
def markDeleted (tidEnd : ℕ) (elm : HammerBtreeLeafElm) : HammerBtreeLeafElm :=
  if hammerMirrorNomirror elm.base then elm
  else if elm.base.deleteTid = 0 ∧ elm.base.createTid < tidEnd then elm.withDeleteTid tidEnd
  else elm

/-- What a REC or PASS record makes of the element it finds. -/
def settleDeleteTid (leaf elm : HammerBtreeLeafElm) : HammerBtreeLeafElm :=
  if hammerMirrorCheck elm leaf then elm.withDeleteTid leaf.base.deleteTid else elm

@[simp] theorem markDeleted_sortKey (tidEnd : ℕ) (elm : HammerBtreeLeafElm) :
    (markDeleted tidEnd elm).base.sortKey = elm.base.sortKey := by
  unfold markDeleted
  split_ifs <;> rfl

@[simp] theorem settleDeleteTid_sortKey (leaf elm : HammerBtreeLeafElm) :
    (settleDeleteTid leaf elm).base.sortKey = elm.base.sortKey := by
  unfold settleDeleteTid
  split_ifs <;> rfl

variable {edit : HammerBtreeLeafElm → HammerBtreeLeafElm} {tree : List HammerBtreeLeafElm}
  {keys : List SortKey} {elm leaf : HammerBtreeLeafElm} {target target' : MirrorTarget}
  {range : MirrorRange} {record : MirrorRecord} {key : SortKey}

theorem treeKeys_editKeys (keys : List SortKey) (tree : List HammerBtreeLeafElm)
    (hedit : ∀ elm, (edit elm).base.sortKey = elm.base.sortKey) :
    treeKeys (editKeys keys edit tree) = treeKeys tree := by
  unfold treeKeys editKeys
  rw [map_map]
  apply map_congr_left
  intro elm _
  simp only [Function.comp_apply]
  split_ifs
  · exact hedit elm
  · rfl

theorem editKeys_eq_self (hkeys : ∀ elm ∈ tree, elm.base.sortKey ∉ keys) :
    editKeys keys edit tree = tree := by
  calc
    editKeys keys edit tree = tree.map id := by
      apply map_congr_left
      intro elm helm
      exact if_neg (hkeys elm helm)
    _ = tree := map_id _

theorem editKeys_eq_map (hkeys : ∀ elm ∈ tree, elm.base.sortKey ∈ keys) :
    editKeys keys edit tree = tree.map edit := by
  apply map_congr_left
  intro elm helm
  exact if_pos (hkeys elm helm)

theorem editKeys_append (keys : List SortKey) (edit : HammerBtreeLeafElm → HammerBtreeLeafElm)
    (left right : List HammerBtreeLeafElm) :
    editKeys keys edit (left ++ right) = editKeys keys edit left ++ editKeys keys edit right :=
  map_append

/-! ## The deletion sweep -/

def startsBefore (key : HammerBaseElm) (elm : HammerBtreeLeafElm) : Bool :=
  decide (elm.base.sortKey < key.sortKey)

theorem iterate_at_end (keyEnd : HammerBaseElm) (hindex : iterateIndex tree cursor = tree.length) :
    hammerBtreeIterate tree cursor keyEnd = (none, { cursor with index := tree.length }) := by
  simp [hammerBtreeIterate, hindex]

theorem iterate_at_element (keyEnd : HammerBaseElm)
    (hindex : iterateIndex (before ++ elm :: rest) cursor = before.length) :
    hammerBtreeIterate (before ++ elm :: rest) cursor keyEnd =
      (if startsBefore keyEnd elm then some elm else none,
        { cursor with index := before.length }) := by
  have hget : (before ++ elm :: rest)[before.length]? = some elm := by simp
  simp only [hammerBtreeIterate, hindex, hget, startsBefore, decide_eq_true_eq]
  rcases lt_trichotomy keyEnd.sortKey elm.base.sortKey with h | h | h
  · simp [(hammerBtreeCmp_neg_iff keyEnd elm.base).mpr h, h.not_gt]
  · have hzero := (hammerBtreeCmp_eq_zero_iff keyEnd elm.base).mpr h
    simp [hzero, h]
  · have hpos := (hammerBtreeCmp_pos_iff keyEnd elm.base).mpr h
    simp [hpos.not_gt, hpos.ne', h]

theorem iterateIndex_eaten (before rest : List HammerBtreeLeafElm) (elm : HammerBtreeLeafElm) :
    iterateIndex (before ++ elm :: rest) ⟨before.length, true⟩ = before.length + 1 := by
  simp [iterateIndex]

theorem iterateIndex_clear (tree : List HammerBtreeLeafElm) (index : ℕ) :
    iterateIndex tree ⟨index, false⟩ = index := by
  simp [iterateIndex]

def HammerBtreeLeafElm.Swept (elm : HammerBtreeLeafElm) (tidEnd : ℕ) : Prop :=
  hammerMirrorNomirror elm.base = false ∧ elm.base.deleteTid = 0 ∧ elm.base.createTid < tidEnd

theorem markDeleted_live (hlive : elm.Swept tidEnd) :
    markDeleted tidEnd elm = elm.withDeleteTid tidEnd := by
  simp [markDeleted, hlive.1, hlive.2]

theorem markDeleted_kept (hkept : ¬elm.Swept tidEnd) : markDeleted tidEnd elm = elm := by
  unfold markDeleted
  split_ifs with hconfig hlive
  · rfl
  · exact absurd ⟨eq_false_of_ne_true hconfig, hlive⟩ hkept
  · rfl

section Loop

variable (tidEnd : ℕ) (keyEnd keyCur : HammerBaseElm)

section Step

variable {cursor : TrackingCursor} {elm : HammerBtreeLeafElm}
  {before rest : List HammerBtreeLeafElm} (fuel : ℕ)
  (hindex : iterateIndex (before ++ elm :: rest) cursor = before.length)
  (hbefore : startsBefore keyEnd elm = true)

include hindex hbefore

theorem deleteToLoop_kept (hkept : ¬elm.Swept tidEnd) :
    deleteToLoop tidEnd keyEnd (fuel + 1) ⟨before ++ elm :: rest, cursor, keyCur⟩ =
      deleteToLoop tidEnd keyEnd fuel ⟨before ++ elm :: rest, ⟨before.length, true⟩, keyCur⟩ := by
  rw [deleteToLoop, iterate_at_element keyEnd hindex, if_pos hbefore]
  by_cases hconfig : hammerMirrorNomirror elm.base = true
  · simp only [if_pos hconfig]
  · simp only [if_neg fun h => hkept ⟨eq_false_of_ne_true hconfig, h⟩, ite_self]

theorem deleteToLoop_live (hlive : elm.Swept tidEnd) :
    deleteToLoop tidEnd keyEnd (fuel + 1) ⟨before ++ elm :: rest, cursor, keyCur⟩ =
      deleteToLoop tidEnd keyEnd fuel
        ⟨before ++ elm.withDeleteTid tidEnd :: rest, ⟨before.length, false⟩, keyCur⟩ := by
  rw [deleteToLoop, iterate_at_element keyEnd hindex, if_pos hbefore]
  simp [hlive.1, hlive.2, hammerDeleteAtCursor, hlive.2.2.ne', HammerBtreeLeafElm.withDeleteTid]

theorem deleteToLoop_step :
    ∃ left, fuel ≤ left ∧
      deleteToLoop tidEnd keyEnd (fuel + 2) ⟨before ++ elm :: rest, cursor, keyCur⟩ =
        deleteToLoop tidEnd keyEnd left
          ⟨before ++ markDeleted tidEnd elm :: rest, ⟨before.length, true⟩, keyCur⟩ := by
  by_cases hlive : elm.Swept tidEnd
  · rw [markDeleted_live hlive]
    refine ⟨fuel, le_rfl, ?_⟩
    rw [deleteToLoop_live tidEnd keyEnd keyCur (fuel + 1) hindex hbefore hlive]
    apply deleteToLoop_kept tidEnd keyEnd keyCur fuel
    · exact iterateIndex_clear _ _
    · exact hbefore
    · rintro ⟨-, hzero, -⟩
      exact Nat.ne_zero_of_lt hlive.2.2 hzero
  · rw [markDeleted_kept hlive]
    exact ⟨fuel + 1, by omega,
      deleteToLoop_kept tidEnd keyEnd keyCur (fuel + 1) hindex hbefore hlive⟩

end Step

theorem deleteToLoop_eq (rest : List HammerBtreeLeafElm) :
    ∀ (before : List HammerBtreeLeafElm) (cursor : TrackingCursor) (fuel : ℕ),
      2 * rest.length + 1 ≤ fuel → iterateIndex (before ++ rest) cursor = before.length →
      deleteToLoop tidEnd keyEnd fuel ⟨before ++ rest, cursor, keyCur⟩ = some
          ⟨before ++ ((rest.takeWhile (startsBefore keyEnd)).map (markDeleted tidEnd) ++
              rest.dropWhile (startsBefore keyEnd)),
            ⟨before.length + (rest.takeWhile (startsBefore keyEnd)).length,
              cursor.atedisk || !(rest.takeWhile (startsBefore keyEnd)).isEmpty⟩, keyCur⟩ := by
  induction rest with
  | nil =>
    intro before cursor fuel hfuel hindex
    obtain ⟨fuel, rfl⟩ : ∃ n, fuel = n + 1 := ⟨fuel - 1, by simp at hfuel; omega⟩
    have hend : iterateIndex (before ++ []) cursor = (before ++ []).length := by
      simpa using hindex
    rw [deleteToLoop, iterate_at_end keyEnd hend]
    simp
  | cons elm rest ih =>
    intro before cursor fuel hfuel hindex
    simp only [length_cons] at hfuel
    obtain ⟨fuel, rfl⟩ : ∃ n, fuel = n + 2 := ⟨fuel - 2, by omega⟩
    by_cases hbefore : startsBefore keyEnd elm = true
    · obtain ⟨left, hleft, hstep⟩ := deleteToLoop_step tidEnd keyEnd keyCur fuel hindex hbefore
      have hnext : iterateIndex ((before ++ [markDeleted tidEnd elm]) ++ rest)
          ⟨before.length, true⟩ = (before ++ [markDeleted tidEnd elm]).length := by
        simpa using iterateIndex_eaten before rest (markDeleted tidEnd elm)
      have hrest := ih (before ++ [markDeleted tidEnd elm]) ⟨before.length, true⟩ left
        (by omega) hnext
      rw [hstep]
      simp only [append_assoc, cons_append, nil_append] at hrest
      rw [hrest]
      simp [hbefore]
      omega
    · rw [deleteToLoop, iterate_at_element keyEnd hindex]
      simp [hbefore]

end Loop

structure MirrorTarget.Placed (target : MirrorTarget) : Prop where
  ordered : TreeOrdered target.tree
  index_le : target.cursor.index ≤ target.tree.length

structure MirrorTarget.Is
    (target : MirrorTarget) (tree : List HammerBtreeLeafElm) (scan : KeyScan SortKey)
    (keyCur : HammerBaseElm) : Prop where
  tree : target.tree = tree
  scan : target.scan = scan
  keyCur : target.keyCur = keyCur
  placed : target.Placed

theorem treeKeys_takeWhile (key : HammerBaseElm) (tree : List HammerBtreeLeafElm) :
    treeKeys (tree.takeWhile (startsBefore key)) = (treeKeys tree).takeWhile (· < key.sortKey) := by
  rw [treeKeys, treeKeys, takeWhile_map]
  rfl

theorem treeKeys_dropWhile (key : HammerBaseElm) (tree : List HammerBtreeLeafElm) :
    treeKeys (tree.dropWhile (startsBefore key)) = (treeKeys tree).dropWhile (· < key.sortKey) := by
  rw [treeKeys, treeKeys, dropWhile_map]
  rfl

theorem scan_next (target : MirrorTarget) :
    target.scan.next = treeKeys (target.tree.drop (iterateIndex target.tree target.cursor)) := by
  unfold KeyScan.next MirrorTarget.scan iterateIndex treeKeys
  by_cases heaten : target.cursor.atedisk = true
  · by_cases hindex : target.cursor.index < target.tree.length
    · simp [heaten, hindex]
    · have hnil : target.tree.drop target.cursor.index = [] := drop_eq_nil_of_le (not_lt.mp hindex)
      simp [heaten, hindex, hnil]
  · simp [heaten]

theorem iterateIndex_le (hplaced : target.Placed) :
    iterateIndex target.tree target.cursor ≤ target.tree.length := by
  have hle := hplaced.index_le
  unfold iterateIndex
  split_ifs <;> omega

def sweptTree (tidEnd : ℕ) (stop : SortKey) (target : MirrorTarget) : List HammerBtreeLeafElm :=
  editKeys (target.scan.passed stop) (markDeleted tidEnd) target.tree

@[simp] theorem treeKeys_sweptTree (tidEnd : ℕ) (stop : SortKey) (target : MirrorTarget) :
    treeKeys (sweptTree tidEnd stop target) = treeKeys target.tree :=
  treeKeys_editKeys _ _ (markDeleted_sortKey tidEnd)

theorem editKeys_middle (edit : HammerBtreeLeafElm → HammerBtreeLeafElm)
    (hordered : TreeOrdered (left ++ (middle ++ right))) :
    editKeys (treeKeys middle) edit (left ++ (middle ++ right)) =
      left ++ (middle.map edit ++ right) := by
  have hkeys : ∀ {elm : HammerBtreeLeafElm} {tree : List HammerBtreeLeafElm},
      elm ∈ tree → elm.base.sortKey ∈ treeKeys tree :=
    fun helm => mem_map_of_mem helm
  simp only [TreeOrdered, treeKeys, map_append] at hordered
  rcases pairwise_append.mp hordered with ⟨-, hrest, hleft⟩
  rcases pairwise_append.mp hrest with ⟨-, -, hright⟩
  rw [editKeys_append, editKeys_append, editKeys_eq_self, editKeys_eq_map, editKeys_eq_self]
  · intro elm helm hmem
    exact lt_irrefl _ (hright _ hmem _ (hkeys helm))
  · exact fun elm helm => hkeys helm
  · intro elm helm hmem
    exact lt_irrefl _ (hleft _ (hkeys helm) _ (mem_append_left _ hmem))

theorem hammerMirrorDeleteTo_spec (tidEnd : ℕ) (keyEnd : HammerBaseElm) (hplaced : target.Placed) :
    ∃ target', hammerMirrorDeleteTo tidEnd keyEnd target = some target' ∧
      target'.Is (sweptTree tidEnd keyEnd.sortKey target)
        (target.scan.toward keyEnd.sortKey) target.keyCur := by
  let index := iterateIndex target.tree target.cursor
  let before := target.tree.take index
  let rest := target.tree.drop index
  have hlength : before.length = index := by
    simpa [before] using iterateIndex_le hplaced
  have htree : before ++ rest = target.tree := take_append_drop _ _
  have hsplit : rest.takeWhile (startsBefore keyEnd) ++ rest.dropWhile (startsBefore keyEnd) =
      rest := takeWhile_append_dropWhile
  have hfuel : 2 * rest.length + 1 ≤ 2 * target.tree.length + 1 := by
    have : rest.length ≤ target.tree.length := by simp [rest]
    omega
  have hrun := deleteToLoop_eq tidEnd keyEnd target.keyCur rest before target.cursor
    (2 * target.tree.length + 1) hfuel (by rw [htree, hlength])
  have hpassed : target.scan.passed keyEnd.sortKey =
      treeKeys (rest.takeWhile (startsBefore keyEnd)) := by
    rw [passed, scan_next, treeKeys_takeWhile]
  have hswept : sweptTree tidEnd keyEnd.sortKey target =
      before ++ ((rest.takeWhile (startsBefore keyEnd)).map (markDeleted tidEnd) ++
        rest.dropWhile (startsBefore keyEnd)) := by
    rw [sweptTree, hpassed, ← editKeys_middle]
    · rw [hsplit, htree]
    · rw [hsplit, htree]
      exact hplaced.ordered
  rw [htree] at hrun
  refine ⟨_, hrun, hswept.symm, ?_, rfl, ?_, ?_⟩
  · have hahead : (before ++ ((rest.takeWhile (startsBefore keyEnd)).map (markDeleted tidEnd) ++
        rest.dropWhile (startsBefore keyEnd))).drop
          (before.length + (rest.takeWhile (startsBefore keyEnd)).length) =
        rest.dropWhile (startsBefore keyEnd) := by
      rw [← append_assoc]
      apply drop_left'
      simp
    have hempty : (treeKeys (rest.takeWhile (startsBefore keyEnd))).isEmpty =
        (rest.takeWhile (startsBefore keyEnd)).isEmpty := by
      simp [treeKeys]
    simp only [MirrorTarget.scan, toward, hahead, treeKeys_dropWhile]
    have hnext := scan_next target
    have hpassed' := hpassed
    simp only [MirrorTarget.scan] at hnext hpassed'
    rw [hnext, hpassed', hempty]
  · have hkeys := treeKeys_sweptTree tidEnd keyEnd.sortKey target
    rw [hswept] at hkeys
    simp only [TreeOrdered, hkeys]
    exact hplaced.ordered
  · simp

/-! ## Lookups -/

section

variable (tree : List HammerBtreeLeafElm) (key : HammerBaseElm)

theorem dropWhile_eq_drop_lookupIndex :
    tree.dropWhile (startsBefore key) = tree.drop (lookupIndex tree key) := by
  rw [dropWhile_eq_drop_findIdx_not]
  congr 2
  funext elm
  simp only [startsBefore, ← hammerBtreeCmp_neg_iff]
  by_cases h : hammerBtreeCmp elm.base key < 0
  · simp [h]
  · simp [h, not_lt.mp h]

theorem treeKeys_drop_lookupIndex :
    treeKeys (tree.drop (lookupIndex tree key)) = (treeKeys tree).dropWhile (· < key.sortKey) := by
  rw [← dropWhile_eq_drop_lookupIndex, treeKeys_dropWhile]

theorem lookupIndex_le : lookupIndex tree key ≤ tree.length :=
  findIdx_le_length

end

theorem scan_seekTo (target : MirrorTarget) (key : HammerBaseElm) :
    (seekTo target key).scan =
      KeyScan.seek (treeKeys target.tree) key.sortKey target.cursor.atedisk := by
  simp only [MirrorTarget.scan, seekTo, treeKeys_drop_lookupIndex, seek]

theorem lookup_of_some {key : HammerBaseElm} (hlookup : hammerBtreeLookup tree key = some elm) :
    tree[lookupIndex tree key]? = some elm ∧ elm.base.sortKey = key.sortKey := by
  unfold hammerBtreeLookup at hlookup
  cases hget : tree[lookupIndex tree key]? with
  | none =>
    rw [hget] at hlookup
    cases hlookup
  | some found =>
    rw [hget] at hlookup
    simp only at hlookup
    split_ifs at hlookup with hzero
    rw [Option.some.inj hlookup] at hzero ⊢
    exact ⟨rfl, (hammerBtreeCmp_eq_zero_iff _ _).mp hzero⟩

theorem lookup_of_none {key : HammerBaseElm} (hordered : TreeOrdered tree)
    (hlookup : hammerBtreeLookup tree key = none) : key.sortKey ∉ treeKeys tree := by
  intro hmem
  have hdrop : treeKeys (tree.drop (lookupIndex tree key)) =
      (treeKeys tree).filter (key.sortKey ≤ ·) := by
    rw [treeKeys_drop_lookupIndex, dropWhile_lt_eq_filter _ hordered]
  have hahead : key.sortKey ∈ treeKeys (tree.drop (lookupIndex tree key)) := by
    rw [hdrop]
    simpa using hmem
  -- what is left of the tree starts at the key, so its head is the match
  cases hrest : tree.drop (lookupIndex tree key) with
  | nil => simp [hrest, treeKeys] at hahead
  | cons head rest =>
    rw [hrest] at hdrop hahead
    have hget : tree[lookupIndex tree key]? = some head := by
      rw [← head?_drop, hrest]
      rfl
    have hge : key.sortKey ≤ head.base.sortKey := by
      have hhead : head.base.sortKey ∈ treeKeys (head :: rest) := mem_cons_self
      rw [hdrop] at hhead
      simpa using (mem_filter.mp hhead).2
    have hsorted : (treeKeys (head :: rest)).Pairwise (· < ·) := hdrop ▸ hordered.filter _
    have hle : head.base.sortKey ≤ key.sortKey := by
      rcases mem_cons.mp hahead with h | h
      · exact h.ge
      · exact ((List.pairwise_cons.mp hsorted).1 _ h).le
    have hzero := (hammerBtreeCmp_eq_zero_iff head.base key).mpr (le_antisymm hle hge)
    simp [hammerBtreeLookup, hget, hzero] at hlookup

theorem set_lookupIndex {key : HammerBaseElm} (edit : HammerBtreeLeafElm → HammerBtreeLeafElm)
    (hordered : TreeOrdered tree) (hlookup : hammerBtreeLookup tree key = some elm) :
    tree.set (lookupIndex tree key) (edit elm) = editKeys [key.sortKey] edit tree := by
  rcases lookup_of_some hlookup with ⟨hget, hkey⟩
  rcases List.getElem?_eq_some_iff.mp hget with ⟨hlt, helm⟩
  let left := tree.take (lookupIndex tree key)
  let right := tree.drop (lookupIndex tree key + 1)
  have htree : left ++ ([elm] ++ right) = tree := by
    simp only [left, right, ← helm, singleton_append, getElem_cons_drop, take_append_drop]
  have hset : tree.set (lookupIndex tree key) (edit elm) = left ++ ([elm].map edit ++ right) := by
    rw [set_eq_take_append_cons_drop, if_pos hlt]
    rfl
  rw [hset, ← editKeys_middle edit (htree ▸ hordered), htree]
  simp [treeKeys, hkey]

/-! ## Creating a record -/

def insertLeaf (leaf : HammerBtreeLeafElm) (tree : List HammerBtreeLeafElm) :
    List HammerBtreeLeafElm :=
  tree.takeWhile (startsBefore leaf.base) ++ leaf :: tree.dropWhile (startsBefore leaf.base)

theorem mem_insertLeaf : elm ∈ insertLeaf leaf tree ↔ elm = leaf ∨ elm ∈ tree := by
  have hsplit : tree.takeWhile (startsBefore leaf.base) ++
      tree.dropWhile (startsBefore leaf.base) = tree :=
    takeWhile_append_dropWhile
  conv_rhs => rw [← hsplit]
  simp only [insertLeaf, mem_append, mem_cons]
  tauto

theorem insertLeaf_eq (leaf : HammerBtreeLeafElm) (tree : List HammerBtreeLeafElm) :
    tree.take (lookupIndex tree leaf.base) ++
      leaf :: tree.drop (lookupIndex tree leaf.base) = insertLeaf leaf tree := by
  have hdrop := dropWhile_eq_drop_lookupIndex tree leaf.base
  have htake : tree.take (lookupIndex tree leaf.base) =
      tree.takeWhile (startsBefore leaf.base) := by
    have hsplit : tree.takeWhile (startsBefore leaf.base) ++
        tree.drop (lookupIndex tree leaf.base) = tree := by
      rw [← hdrop]
      exact takeWhile_append_dropWhile
    exact (append_cancel_right (hsplit.trans (take_append_drop _ _).symm)).symm
  rw [htake, ← hdrop, insertLeaf]

theorem treeKeys_insertLeaf (hordered : TreeOrdered tree) :
    treeKeys (insertLeaf leaf tree) = (treeKeys tree).filter (· < leaf.base.sortKey) ++
      leaf.base.sortKey :: (treeKeys tree).filter (leaf.base.sortKey ≤ ·) := by
  rw [← takeWhile_lt_eq_filter _ hordered, ← dropWhile_lt_eq_filter _ hordered,
    ← treeKeys_takeWhile, ← treeKeys_dropWhile]
  simp [insertLeaf, treeKeys]

theorem insertLeaf_ordered
    (hordered : TreeOrdered tree) (hnew : leaf.base.sortKey ∉ treeKeys tree) :
    TreeOrdered (insertLeaf leaf tree) := by
  unfold TreeOrdered
  rw [treeKeys_insertLeaf hordered, pairwise_append, pairwise_cons]
  refine ⟨hordered.filter _, ⟨?_, hordered.filter _⟩, ?_⟩
  · intro key hkey
    simp only [mem_filter, decide_eq_true_eq] at hkey
    exact lt_of_le_of_ne hkey.2 (fun h => hnew (h ▸ hkey.1))
  · intro low hlow high hhigh
    simp only [mem_filter, decide_eq_true_eq] at hlow
    rcases mem_cons.mp hhigh with rfl | hhigh
    · exact hlow.2
    · simp only [List.mem_filter, decide_eq_true_eq] at hhigh
      exact hlow.2.trans_le hhigh.2

theorem ahead_insertLeaf (hordered : TreeOrdered tree) :
    leaf.base.sortKey :: (treeKeys tree).dropWhile (· < leaf.base.sortKey) =
      (treeKeys (insertLeaf leaf tree)).dropWhile (· < leaf.base.sortKey) := by
  rw [treeKeys_insertLeaf hordered, dropWhile_append_of_pos (by simp),
    dropWhile_lt_eq_filter _ hordered]
  simp

/-! ## One stream record -/

def MirrorRecord.leaf? : MirrorRecord → Option HammerBtreeLeafElm
  | .skip _ _ => none
  | .record leaf => some leaf
  | .pass leaf => some leaf

def MirrorRecord.isPass : MirrorRecord → Bool
  | .pass _ => true
  | _ => false

def MirrorRecord.start : MirrorRecord → SortKey
  | .skip skipBeg _ => skipBeg.sortKey
  | .record leaf => leaf.base.sortKey
  | .pass leaf => leaf.base.sortKey

inductive Written (range : MirrorRange) (target : MirrorTarget) :
    MirrorRecord → MirrorTarget → Prop
  | skip {skipBeg skipEnd : HammerBaseElm} {target' : MirrorTarget}
      (his : target'.Is (sweptTree range.tidEnd skipBeg.sortKey target)
        (KeyScan.seek (treeKeys target.tree) skipEnd.sortKey false) skipEnd) :
      Written range target (.skip skipBeg skipEnd) target'
  | unmirrored {record : MirrorRecord} {leaf : HammerBtreeLeafElm} {target' : MirrorTarget}
      (hleaf : record.leaf? = some leaf)
      (hconfig : hammerMirrorNomirror leaf.base = true)
      (his : target'.Is (sweptTree range.tidEnd leaf.base.sortKey target)
        (target.scan.toward leaf.base.sortKey) target.keyCur) :
      Written range target record target'
  | found {record : MirrorRecord} {leaf elm : HammerBtreeLeafElm} {eaten : Bool}
      {target' : MirrorTarget}
      (hleaf : record.leaf? = some leaf)
      (hmirror : hammerMirrorNomirror leaf.base = false)
      (helm : elm ∈ sweptTree range.tidEnd leaf.base.sortKey target)
      (hkey : elm.base.sortKey = leaf.base.sortKey)
      (heaten : eaten = (record.isPass || hammerMirrorCheck elm leaf ||
        (target.scan.toward leaf.base.sortKey).eaten))
      (his : target'.Is (editKeys [leaf.base.sortKey] (settleDeleteTid leaf)
          (sweptTree range.tidEnd leaf.base.sortKey target))
        (KeyScan.seek (treeKeys target.tree) leaf.base.sortKey eaten) leaf.base) :
      Written range target record target'
  | passMissing {leaf : HammerBtreeLeafElm} {target' : MirrorTarget}
      (hmirror : hammerMirrorNomirror leaf.base = false)
      (hmissing : leaf.base.sortKey ∉ treeKeys target.tree)
      (his : target'.Is (sweptTree range.tidEnd leaf.base.sortKey target)
        (KeyScan.seek (treeKeys target.tree) leaf.base.sortKey false) leaf.base) :
      Written range target (.pass leaf) target'
  | recordOld {leaf : HammerBtreeLeafElm} {target' : MirrorTarget}
      (hmirror : hammerMirrorNomirror leaf.base = false)
      (hmissing : leaf.base.sortKey ∉ treeKeys target.tree)
      (hold : leaf.base.createTid < range.tidBeg)
      (his : target'.Is (sweptTree range.tidEnd leaf.base.sortKey target)
        (KeyScan.seek (treeKeys target.tree) leaf.base.sortKey
          (target.scan.toward leaf.base.sortKey).eaten) leaf.base) :
      Written range target (.record leaf) target'
  | recordCreated {leaf : HammerBtreeLeafElm} {target' : MirrorTarget}
      (hmirror : hammerMirrorNomirror leaf.base = false)
      (hmissing : leaf.base.sortKey ∉ treeKeys target.tree)
      (hrecent : range.tidBeg ≤ leaf.base.createTid)
      (his : target'.Is (insertLeaf leaf (sweptTree range.tidEnd leaf.base.sortKey target))
        ⟨leaf.base.sortKey :: (treeKeys target.tree).dropWhile (· < leaf.base.sortKey), true⟩
        leaf.base) :
      Written range target (.record leaf) target'

/-- The assertion of `hammer_delete_at_cursor` on the update of a record that was found. -/
def TripsAssertion (range : MirrorRange) (target : MirrorTarget) (record : MirrorRecord) : Prop :=
  ∃ leaf elm, record.leaf? = some leaf ∧ hammerMirrorNomirror leaf.base = false ∧
    elm ∈ sweptTree range.tidEnd leaf.base.sortKey target ∧
    elm.base.sortKey = leaf.base.sortKey ∧ hammerMirrorCheck elm leaf = true ∧
    leaf.base.deleteTid = leaf.base.createTid

theorem seekTo_is (key : HammerBaseElm) (hplaced : target.Placed) :
    (seekTo target key).Is target.tree
      (KeyScan.seek (treeKeys target.tree) key.sortKey target.cursor.atedisk) target.keyCur :=
  ⟨rfl, scan_seekTo target key, rfl, hplaced.ordered, lookupIndex_le target.tree key⟩

theorem settle_unchanged
    (hordered : TreeOrdered tree) (hlookup : hammerBtreeLookup tree leaf.base = some elm)
    (hcheck : hammerMirrorCheck elm leaf = false) :
    editKeys [leaf.base.sortKey] (settleDeleteTid leaf) tree = tree := by
  rw [← set_lookupIndex _ hordered hlookup]
  rcases List.getElem?_eq_some_iff.mp (lookup_of_some hlookup).1 with ⟨hlt, helm⟩
  have hsettle : settleDeleteTid leaf elm = elm := by simp [settleDeleteTid, hcheck]
  rw [hsettle, ← helm, set_getElem_self]

theorem mirrorUpdate_spec
    (hplaced : target.Placed) (hlookup : hammerBtreeLookup target.tree leaf.base = some elm)
    (hcheck : hammerMirrorCheck elm leaf = true) :
    (hammerMirrorUpdate (seekTo target leaf.base) elm leaf = none ∧
      leaf.base.deleteTid = leaf.base.createTid) ∨
    ∃ target', hammerMirrorUpdate (seekTo target leaf.base) elm leaf = some target' ∧
      target'.Is (editKeys [leaf.base.sortKey] (settleDeleteTid leaf) target.tree)
        (KeyScan.seek (treeKeys target.tree) leaf.base.sortKey true) target.keyCur := by
  have hkey := (lookup_of_some hlookup).2
  have htid : elm.base.createTid = leaf.base.createTid := ((sortKey_eq_iff _ _).mp hkey).2.2.2.2
  have hdelete : leaf.base.deleteTid ≠ 0 := by
    simp only [hammerMirrorCheck, decide_eq_true_eq] at hcheck
    exact hcheck.2
  have hsettle : settleDeleteTid leaf elm = elm.withDeleteTid leaf.base.deleteTid := by
    simp [settleDeleteTid, hcheck]
  have hkeys := treeKeys_editKeys [leaf.base.sortKey] target.tree (settleDeleteTid_sortKey leaf)
  have hset := set_lookupIndex (settleDeleteTid leaf) hplaced.ordered hlookup
  rw [hsettle] at hset
  by_cases hsame : leaf.base.deleteTid = elm.base.createTid
  · left
    refine ⟨?_, hsame.trans htid⟩
    simp [hammerMirrorUpdate, hammerDeleteAtCursor, hsame, hsame ▸ hdelete]
  · right
    refine ⟨⟨target.tree.set (lookupIndex target.tree leaf.base)
      (elm.withDeleteTid leaf.base.deleteTid),
      ⟨lookupIndex target.tree leaf.base, true⟩, target.keyCur⟩, ?_, ?_⟩
    · simp [hammerMirrorUpdate, hdelete, hammerDeleteAtCursor, hsame, seekTo,
        HammerBtreeLeafElm.withDeleteTid]
    · refine ⟨hset, ?_, rfl, ?_, ?_⟩
      · simp only [MirrorTarget.scan, hset, seek, ← treeKeys_drop_lookupIndex]
        have hdrop : treeKeys ((editKeys [leaf.base.sortKey] (settleDeleteTid leaf)
            target.tree).drop (lookupIndex target.tree leaf.base)) =
            treeKeys (target.tree.drop (lookupIndex target.tree leaf.base)) := by
          simp only [treeKeys] at hkeys ⊢
          rw [map_drop, hkeys, map_drop]
        rw [hdrop]
      · simp only [TreeOrdered, hset, hkeys]
        exact hplaced.ordered
      · simpa using lookupIndex_le target.tree leaf.base

theorem createAtCursor_is
    (hplaced : target.Placed) (hnew : leaf.base.sortKey ∉ treeKeys target.tree) :
    (hammerCreateAtCursor (seekTo target leaf.base) leaf).Is (insertLeaf leaf target.tree)
      ⟨leaf.base.sortKey :: (treeKeys target.tree).dropWhile (· < leaf.base.sortKey), true⟩
      target.keyCur := by
  have hinsert := insertLeaf_eq leaf target.tree
  have hle := lookupIndex_le target.tree leaf.base
  refine ⟨hinsert, ?_, rfl, ?_, ?_⟩
  · simp only [MirrorTarget.scan, hammerCreateAtCursor, seekTo]
    rw [drop_left' (by simpa using hle), ← treeKeys_drop_lookupIndex]
    rfl
  · simp only [hammerCreateAtCursor, seekTo, hinsert]
    exact insertLeaf_ordered hplaced.ordered hnew
  · simp only [hammerCreateAtCursor, seekTo, length_append, length_take, List.length_cons]
    omega

theorem settleFound_spec
    (hplaced : target.Placed) (hlookup : hammerBtreeLookup target.tree leaf.base = some elm) :
    (∃ target',
      (if hammerMirrorCheck elm leaf then hammerMirrorUpdate (seekTo target leaf.base) elm leaf
        else some (seekTo target leaf.base)) = some target' ∧
      target'.Is (editKeys [leaf.base.sortKey] (settleDeleteTid leaf) target.tree)
        (KeyScan.seek (treeKeys target.tree) leaf.base.sortKey
          (hammerMirrorCheck elm leaf || target.cursor.atedisk)) target.keyCur) ∨
    (if hammerMirrorCheck elm leaf then hammerMirrorUpdate (seekTo target leaf.base) elm leaf
      else some (seekTo target leaf.base)) = none ∧
      hammerMirrorCheck elm leaf = true ∧ leaf.base.deleteTid = leaf.base.createTid := by
  by_cases hcheck : hammerMirrorCheck elm leaf = true
  · simp only [hcheck, if_true, Bool.true_or, true_and]
    exact (mirrorUpdate_spec hplaced hlookup hcheck).symm
  · have hunchanged : hammerMirrorCheck elm leaf = false := by simpa using hcheck
    left
    refine ⟨seekTo target leaf.base, by simp [hunchanged], ?_⟩
    rw [settle_unchanged hplaced.ordered hlookup hunchanged, hunchanged, Bool.false_or]
    exact seekTo_is leaf.base hplaced

theorem MirrorTarget.Is.resume
    {scan : KeyScan SortKey} {keyCur : HammerBaseElm} (next : HammerBaseElm)
    (his : target.Is tree scan keyCur) :
    { target with keyCur := next }.Is tree scan next :=
  ⟨his.tree, his.scan, rfl, his.placed.ordered, his.placed.index_le⟩

theorem MirrorTarget.Is.flag {scan : KeyScan SortKey} {keyCur : HammerBaseElm} (eaten : Bool)
    (his : target.Is tree scan keyCur) :
    { target with cursor := { target.cursor with atedisk := eaten } }.Is tree
      ⟨scan.ahead, eaten⟩ keyCur :=
  ⟨his.tree, by rw [← his.scan]; rfl, his.keyCur, his.placed.ordered, his.placed.index_le⟩

theorem mem_of_lookup {key : HammerBaseElm} (hlookup : hammerBtreeLookup tree key = some elm) :
    elm ∈ tree := by
  rcases List.getElem?_eq_some_iff.mp (lookup_of_some hlookup).1 with ⟨hlt, hget⟩
  rw [← hget]
  exact getElem_mem hlt

theorem writeSkip_written (skipBeg skipEnd : HammerBaseElm) (hplaced : target.Placed) :
    ∃ target', writeRecord range target (.skip skipBeg skipEnd) = some target' ∧
      Written range target (.skip skipBeg skipEnd) target' := by
  obtain ⟨swept, hrun, hswept⟩ := hammerMirrorDeleteTo_spec range.tidEnd skipBeg hplaced
  refine ⟨⟨swept.tree, ⟨lookupIndex swept.tree skipEnd, false⟩, skipEnd⟩, ?_, ?_⟩
  · rw [writeRecord, hammerIocMirrorWriteSkip, hrun]
    rfl
  · apply Written.skip
    refine ⟨hswept.tree, ?_, rfl, hswept.placed.ordered, lookupIndex_le _ _⟩
    rw [← treeKeys_sweptTree range.tidEnd skipBeg.sortKey target, ← hswept.tree]
    exact scan_seekTo { swept with cursor := { swept.cursor with atedisk := false } } skipEnd

/-- The record is written, or its TIDs trip the assertion of `hammer_delete_at_cursor`. -/
def Settles (range : MirrorRange) (target : MirrorTarget) (record : MirrorRecord)
    (result : Option MirrorTarget) : Prop :=
  (∃ target', result = some target' ∧ Written range target record target') ∨
    result = none ∧ TripsAssertion range target record

/-- The part that `hammer_ioc_mirror_write_rec` and `hammer_ioc_mirror_write_pass` share. -/
theorem settles_of_place {place : MirrorTarget → Option MirrorTarget} (hplaced : target.Placed)
    (hleaf : record.leaf? = some leaf)
    (hplace : ∀ swept : MirrorTarget, hammerMirrorNomirror leaf.base = false →
      swept.Is (sweptTree range.tidEnd leaf.base.sortKey target)
        (target.scan.toward leaf.base.sortKey) target.keyCur →
      Settles range target record (place swept)) :
    Settles range target record ((hammerMirrorDeleteTo range.tidEnd leaf.base target).bind
      fun target => if hammerMirrorNomirror leaf.base then some target else place target) := by
  obtain ⟨swept, hrun, hswept⟩ := hammerMirrorDeleteTo_spec range.tidEnd leaf.base hplaced
  rw [hrun, Option.bind_some]
  by_cases hconfig : hammerMirrorNomirror leaf.base = true
  · exact .inl ⟨swept, if_pos hconfig, .unmirrored hleaf hconfig hswept⟩
  · rw [if_neg hconfig]
    exact hplace swept (eq_false_of_ne_true hconfig) hswept

theorem writeRec_settles (leaf : HammerBtreeLeafElm) (hplaced : target.Placed) :
    Settles range target (.record leaf) (writeRecord range target (.record leaf)) := by
  apply settles_of_place hplaced rfl
  intro swept hmirror hswept
  have hkeys : treeKeys swept.tree = treeKeys target.tree := by
    rw [hswept.tree, treeKeys_sweptTree]
  have hsame : (seekTo swept leaf.base).tree = swept.tree := rfl
  cases hlookup : hammerBtreeLookup swept.tree leaf.base with
  | some elm =>
    simp only [placeRec, hsame, hlookup]
    have helm := hswept.tree ▸ mem_of_lookup hlookup
    have hkey := (lookup_of_some hlookup).2
    rcases settleFound_spec hswept.placed hlookup with ⟨target', hsome, his⟩ | ⟨hnone, hbad⟩
    · refine .inl ⟨{ target' with keyCur := leaf.base }, by rw [hsome]; rfl, ?_⟩
      rw [show swept.cursor.atedisk = _ from congrArg eaten hswept.scan, hswept.tree,
        treeKeys_sweptTree] at his
      exact .found rfl hmirror helm hkey rfl (his.resume leaf.base)
    · exact .inr ⟨by rw [hnone]; rfl, leaf, elm, rfl, hmirror, helm, hkey, hbad⟩
  | none =>
    simp only [placeRec, hsame, hlookup]
    have hmissing := lookup_of_none hswept.placed.ordered hlookup
    left
    by_cases hrecent : leaf.base.createTid ≥ range.tidBeg
    · refine ⟨_, by rw [if_pos hrecent]; rfl, ?_⟩
      apply Written.recordCreated hmirror (hkeys ▸ hmissing) hrecent
      rw [← hswept.tree, ← hkeys]
      exact (createAtCursor_is hswept.placed hmissing).resume leaf.base
    · refine ⟨_, by rw [if_neg hrecent]; rfl, ?_⟩
      apply Written.recordOld hmirror (hkeys ▸ hmissing) (not_le.mp hrecent)
      rw [← hswept.scan, ← hswept.tree, ← hkeys]
      exact (seekTo_is leaf.base hswept.placed).resume leaf.base

theorem writePass_settles (leaf : HammerBtreeLeafElm) (hplaced : target.Placed) :
    Settles range target (.pass leaf) (writeRecord range target (.pass leaf)) := by
  apply settles_of_place hplaced rfl
  intro swept hmirror hswept
  have hsame : (seekTo swept leaf.base).tree = swept.tree := rfl
  cases hlookup : hammerBtreeLookup swept.tree leaf.base with
  | some elm =>
    simp only [passOver, hsame, hlookup]
    have helm := hswept.tree ▸ mem_of_lookup hlookup
    have hkey := (lookup_of_some hlookup).2
    rcases settleFound_spec hswept.placed hlookup with ⟨target', hsome, his⟩ | ⟨hnone, hbad⟩
    · refine .inl ⟨_, by rw [hsome]; rfl, ?_⟩
      rw [hswept.tree, treeKeys_sweptTree] at his
      exact .found rfl hmirror helm hkey rfl ((his.flag true).resume leaf.base)
    · exact .inr ⟨by rw [hnone]; rfl, leaf, elm, rfl, hmirror, helm, hkey, hbad⟩
  | none =>
    simp only [passOver, hsame, hlookup]
    have hkeys : treeKeys swept.tree = treeKeys target.tree := by
      rw [hswept.tree, treeKeys_sweptTree]
    refine .inl ⟨_, rfl, ?_⟩
    apply Written.passMissing hmirror (hkeys ▸ lookup_of_none hswept.placed.ordered hlookup)
    rw [← hswept.tree, ← hkeys]
    exact ((seekTo_is leaf.base hswept.placed).flag false).resume leaf.base

theorem writeRecord_spec (range : MirrorRange) (record : MirrorRecord) (hplaced : target.Placed) :
    Settles range target record (writeRecord range target record) := by
  cases record with
  | skip skipBeg skipEnd => exact .inl (writeSkip_written skipBeg skipEnd hplaced)
  | record leaf => exact writeRec_settles leaf hplaced
  | pass leaf => exact writePass_settles leaf hplaced

theorem writeRecord_written
    (hplaced : target.Placed) (hwrite : writeRecord range target record = some target') :
    Written range target record target' := by
  rcases writeRecord_spec range record hplaced with ⟨found, hfound, hwritten⟩ | ⟨hnone, -⟩
  · rw [hwrite] at hfound
    exact Option.some.inj hfound ▸ hwritten
  · rw [hwrite] at hnone
    cases hnone

theorem Written.placed (hwritten : Written range target record target') : target'.Placed := by
  cases hwritten with
  | skip his | unmirrored _ _ his | found _ _ _ _ _ his | passMissing _ _ his
  | recordOld _ _ _ his | recordCreated _ _ _ his => exact his.placed

theorem mem_editKeys :
    elm ∈ editKeys keys edit tree ↔
      ∃ old ∈ tree, (if old.base.sortKey ∈ keys then edit old else old) = elm :=
  mem_map

theorem MirrorRecord.eq_of_leaf
    (hleaf : record.leaf? = some leaf) : record = .record leaf ∨ record = .pass leaf := by
  cases record with
  | skip => cases hleaf
  | record => exact .inl (congrArg _ (Option.some.inj hleaf))
  | pass => exact .inr (congrArg _ (Option.some.inj hleaf))

theorem MirrorRecord.start_of_leaf (hleaf : record.leaf? = some leaf) :
    record.start = leaf.base.sortKey := by
  rcases eq_of_leaf hleaf with rfl | rfl <;> rfl

theorem Written.tree_cases (hwritten : Written range target record target') :
    target'.tree = sweptTree range.tidEnd record.start target ∨
    (∃ leaf, record.leaf? = some leaf ∧ hammerMirrorNomirror leaf.base = false ∧
      target'.tree = editKeys [leaf.base.sortKey] (settleDeleteTid leaf)
        (sweptTree range.tidEnd record.start target)) ∨
    ∃ leaf, record = .record leaf ∧ hammerMirrorNomirror leaf.base = false ∧
      leaf.base.sortKey ∉ treeKeys target.tree ∧ range.tidBeg ≤ leaf.base.createTid ∧
      target'.tree = insertLeaf leaf (sweptTree range.tidEnd record.start target) := by
  cases hwritten with
  | skip his | passMissing _ _ his | recordOld _ _ _ his => exact .inl his.tree
  | unmirrored hleaf _ his => exact .inl (by rw [his.tree, start_of_leaf hleaf])
  | found hleaf hmirror _ _ _ his =>
    exact .inr (.inl ⟨_, hleaf, hmirror, by rw [his.tree, start_of_leaf hleaf]⟩)
  | recordCreated hmirror hmissing hrecent his =>
    exact .inr (.inr ⟨_, rfl, hmirror, hmissing, hrecent, his.tree⟩)

theorem mem_treeKeys : key ∈ treeKeys tree ↔ ∃ elm ∈ tree, elm.base.sortKey = key :=
  mem_map

theorem mem_treeKeys_insertLeaf :
    key ∈ treeKeys (insertLeaf leaf tree) ↔ key = leaf.base.sortKey ∨ key ∈ treeKeys tree := by
  simp only [mem_treeKeys, mem_insertLeaf]
  constructor
  · rintro ⟨elm, rfl | helm, rfl⟩
    · exact .inl rfl
    · exact .inr ⟨elm, helm, rfl⟩
  · rintro (rfl | ⟨elm, helm, rfl⟩)
    · exact ⟨leaf, .inl rfl, rfl⟩
    · exact ⟨elm, .inr helm, rfl⟩

/-- The record the writer may add to a tree that lacks it. -/
def MirrorRecord.creates (range : MirrorRange) : MirrorRecord → Option SortKey
  | .record leaf =>
    if hammerMirrorNomirror leaf.base = false ∧ range.tidBeg ≤ leaf.base.createTid then
      some leaf.base.sortKey
    else none
  | _ => none

theorem MirrorRecord.creates_eq_some (hcreates : record.creates range = some key) :
    ∃ leaf, record = .record leaf ∧ hammerMirrorNomirror leaf.base = false ∧
      range.tidBeg ≤ leaf.base.createTid ∧ leaf.base.sortKey = key := by
  cases record with
  | skip | pass => cases hcreates
  | record leaf =>
    simp only [creates] at hcreates
    split_ifs at hcreates with h
    exact ⟨leaf, rfl, h.1, h.2, Option.some.inj hcreates⟩

theorem Written.mem_keys_of_creates
    (hwritten : Written range target record target') (hcreates : record.creates range = some key) :
    key ∈ treeKeys target'.tree := by
  obtain ⟨leaf, rfl, hmirror, hrecent, rfl⟩ := creates_eq_some hcreates
  cases hwritten with
  | unmirrored hleaf hconfig _ =>
    cases hleaf
    cases hmirror.symm.trans hconfig
  | found hleaf _ helm hkey _ his =>
    rw [← Option.some.inj hleaf] at helm hkey his
    rw [his.tree, treeKeys_editKeys _ _ (settleDeleteTid_sortKey leaf)]
    exact mem_treeKeys.mpr ⟨_, helm, hkey⟩
  | recordOld _ _ hold _ => exact absurd hrecent (not_le.mpr hold)
  | recordCreated _ _ _ his =>
    rw [his.tree]
    exact mem_treeKeys_insertLeaf.mpr (.inl rfl)

theorem Written.mem_keys_iff (hwritten : Written range target record target') :
    key ∈ treeKeys target'.tree ↔ key ∈ treeKeys target.tree ∨ record.creates range = some key := by
  constructor
  · intro hmem
    rcases hwritten.tree_cases with htree | ⟨leaf, -, -, htree⟩ |
      ⟨leaf, rfl, hmirror, -, hrecent, htree⟩
    · rw [htree, treeKeys_sweptTree] at hmem
      exact .inl hmem
    · rw [htree, treeKeys_editKeys _ _ (settleDeleteTid_sortKey leaf), treeKeys_sweptTree] at hmem
      exact .inl hmem
    · rw [htree, mem_treeKeys_insertLeaf, treeKeys_sweptTree] at hmem
      rcases hmem with rfl | hmem
      · exact .inr (if_pos ⟨hmirror, hrecent⟩)
      · exact .inl hmem
  · rintro (hmem | hcreates)
    · rcases hwritten.tree_cases with htree | ⟨leaf, -, -, htree⟩ | ⟨leaf, -, -, -, -, htree⟩
      · rwa [htree, treeKeys_sweptTree]
      · rwa [htree, treeKeys_editKeys _ _ (settleDeleteTid_sortKey leaf), treeKeys_sweptTree]
      · rw [htree, mem_treeKeys_insertLeaf, treeKeys_sweptTree]
        exact .inr hmem
    · exact hwritten.mem_keys_of_creates hcreates

/-! ## Where a record leaves the cursor -/

def MirrorRecord.landing : MirrorRecord → SortKey
  | .skip _ skipEnd => skipEnd.sortKey
  | .record leaf => leaf.base.sortKey
  | .pass leaf => leaf.base.sortKey

def MirrorRecord.mirrored : MirrorRecord → Bool
  | .skip _ _ => true
  | .record leaf => !hammerMirrorNomirror leaf.base
  | .pass leaf => !hammerMirrorNomirror leaf.base

theorem MirrorRecord.mirrored_of_leaf (hleaf : record.leaf? = some leaf) :
    record.mirrored = !hammerMirrorNomirror leaf.base := by
  rcases eq_of_leaf hleaf with rfl | rfl <;> rfl

theorem MirrorRecord.landing_of_leaf (hleaf : record.leaf? = some leaf) :
    record.landing = leaf.base.sortKey := by
  rcases eq_of_leaf hleaf with rfl | rfl <;> rfl

theorem MirrorTarget.Placed.ahead_sorted (hplaced : target.Placed) :
    target.scan.ahead.Pairwise (· < ·) :=
  hplaced.ordered.sublist ((drop_sublist _ _).map _)

theorem Written.of_unmirrored
    (hwritten : Written range target record target') (hmirrored : record.mirrored = false) :
    target'.Is (sweptTree range.tidEnd record.start target) (target.scan.toward record.start)
      target.keyCur := by
  cases hwritten with
  | skip => cases hmirrored
  | unmirrored hleaf _ his => exact start_of_leaf hleaf ▸ his
  | found hleaf hmirror =>
    rw [mirrored_of_leaf hleaf, hmirror] at hmirrored
    cases hmirrored
  | passMissing hmirror | recordOld hmirror | recordCreated hmirror =>
    exact absurd hmirrored (by simp [mirrored, hmirror])

theorem Written.ahead_of_mirrored
    (hplaced : target.Placed) (hwritten : Written range target record target')
    (hmirrored : record.mirrored = true) :
    target'.scan.ahead = (treeKeys target'.tree).dropWhile (· < record.landing) := by
  cases hwritten with
  | skip his | passMissing _ _ his | recordOld _ _ _ his =>
    rw [his.scan, his.tree, treeKeys_sweptTree]
    rfl
  | unmirrored hleaf hconfig =>
    rw [mirrored_of_leaf hleaf, hconfig] at hmirrored
    cases hmirrored
  | found hleaf _ _ _ _ his =>
    rw [his.scan, his.tree, treeKeys_editKeys _ _ (settleDeleteTid_sortKey _),
      treeKeys_sweptTree, landing_of_leaf hleaf]
    rfl
  | @recordCreated leaf _ _ hmissing _ his =>
    have hkeys := treeKeys_sweptTree range.tidEnd leaf.base.sortKey target
    have hordered : TreeOrdered (sweptTree range.tidEnd leaf.base.sortKey target) := by
      simp only [TreeOrdered, hkeys]
      exact hplaced.ordered
    rw [his.scan, his.tree, landing, ← ahead_insertLeaf hordered, hkeys]

theorem Written.eaten_skip {skipBeg skipEnd : HammerBaseElm}
    (hwritten : Written range target (.skip skipBeg skipEnd) target') :
    target'.scan.eaten = false := by
  cases hwritten with
  | skip his => rw [his.scan]; rfl
  | unmirrored hleaf | found hleaf => cases hleaf

theorem Written.eaten_pass (hwritten : Written range target (.pass leaf) target')
    (hmirror : hammerMirrorNomirror leaf.base = false) :
    target'.scan.eaten = decide (leaf.base.sortKey ∈ treeKeys target.tree) := by
  cases hwritten with
  | unmirrored hleaf hconfig =>
    cases hleaf
    cases hmirror.symm.trans hconfig
  | found hleaf _ helm hkey heaten his =>
    rw [← Option.some.inj hleaf] at helm hkey
    have hmem : leaf.base.sortKey ∈ treeKeys target.tree := by
      rw [← treeKeys_sweptTree range.tidEnd leaf.base.sortKey target]
      exact mem_treeKeys.mpr ⟨_, helm, hkey⟩
    rw [his.scan, seek, heaten]
    simp [isPass, hmem]
  | passMissing _ hmissing his =>
    rw [his.scan, seek]
    simp [hmissing]

/-! ## Elements the sweep leaves alone -/

def KeptAt (tidEnd : ℕ) (key : SortKey) (tree : List HammerBtreeLeafElm) : Prop :=
  ∀ elm ∈ tree, elm.base.sortKey = key → markDeleted tidEnd elm = elm

theorem markDeleted_of_deleteTid (hdelete : elm.base.deleteTid ≠ 0) :
    markDeleted tidEnd elm = elm :=
  markDeleted_kept fun h => hdelete h.2.1

theorem markDeleted_markDeleted (tidEnd : ℕ) (elm : HammerBtreeLeafElm) :
    markDeleted tidEnd (markDeleted tidEnd elm) = markDeleted tidEnd elm := by
  by_cases hlive : elm.Swept tidEnd
  · rw [markDeleted_live hlive]
    apply markDeleted_of_deleteTid
    exact Nat.ne_zero_of_lt hlive.2.2
  · rw [markDeleted_kept hlive, markDeleted_kept hlive]

theorem markDeleted_settleDeleteTid (hkept : markDeleted tidEnd elm = elm) :
    markDeleted tidEnd (settleDeleteTid leaf elm) = settleDeleteTid leaf elm := by
  unfold settleDeleteTid
  split_ifs with hcheck
  · apply markDeleted_of_deleteTid
    simp only [hammerMirrorCheck, decide_eq_true_eq] at hcheck
    exact hcheck.2
  · exact hkept

theorem KeptAt.editKeys (hkept : KeptAt tidEnd key tree)
    (hsame : ∀ elm, (edit elm).base.sortKey = elm.base.sortKey)
    (hedit : ∀ elm, markDeleted tidEnd elm = elm → markDeleted tidEnd (edit elm) = edit elm) :
    KeptAt tidEnd key (editKeys keys edit tree) := by
  intro elm helm hkey
  obtain ⟨old, hold, rfl⟩ := mem_editKeys.mp helm
  split_ifs at hkey ⊢ with hmem
  · exact hedit old (hkept old hold (hsame old ▸ hkey))
  · exact hkept old hold hkey

theorem keptAt_of_passed (hpassed : key ∈ target.scan.passed stop) :
    KeptAt tidEnd key (sweptTree tidEnd stop target) := by
  intro elm helm hkey
  obtain ⟨old, -, rfl⟩ := mem_editKeys.mp helm
  split_ifs at hkey ⊢ with hmem
  · exact markDeleted_markDeleted tidEnd old
  · exact absurd (hkey ▸ hpassed) hmem

theorem KeptAt.sweptTree (stop : SortKey) (hkept : KeptAt tidEnd key target.tree) :
    KeptAt tidEnd key (sweptTree tidEnd stop target) :=
  hkept.editKeys (markDeleted_sortKey tidEnd) (fun elm _ => markDeleted_markDeleted tidEnd elm)

theorem Written.keptAt
    (hwritten : Written range target record target') (hmem : key ∈ treeKeys target.tree)
    (hkept : KeptAt range.tidEnd key (sweptTree range.tidEnd record.start target)) :
    KeptAt range.tidEnd key target'.tree := by
  rcases hwritten.tree_cases with htree | ⟨leaf, -, -, htree⟩ | ⟨leaf, -, -, hnew, -, htree⟩
  · rw [htree]
    exact hkept
  · rw [htree]
    exact hkept.editKeys (settleDeleteTid_sortKey leaf) (fun _ => markDeleted_settleDeleteTid)
  · rw [htree]
    intro elm helm hkey
    rcases mem_insertLeaf.mp helm with rfl | helm
    · exact absurd (hkey ▸ hmem) hnew
    · exact hkept elm helm hkey

/-! ## Runs of records -/

theorem writeRecords_cons
    (range : MirrorRange) (record : MirrorRecord) (records : List MirrorRecord)
    (target : MirrorTarget) :
    writeRecords range (record :: records) target =
      (writeRecord range target record).bind (writeRecords range records) :=
  rfl

theorem writeRecords_cons_some
    {records : List MirrorRecord} {final : MirrorTarget} (hplaced : target.Placed)
    (hrun : writeRecords range (record :: records) target = some final) :
    ∃ target', Written range target record target' ∧
      writeRecords range records target' = some final := by
  rw [writeRecords_cons] at hrun
  obtain ⟨target', hwrite, hrest⟩ := Option.bind_eq_some_iff.mp hrun
  exact ⟨target', writeRecord_written hplaced hwrite, hrest⟩

theorem first_is (range : MirrorRange) (keyCur : HammerBaseElm) (hordered : TreeOrdered tree) :
    MirrorTarget.Is ⟨tree, hammerBtreeFirst tree keyCur range.keyEnd, keyCur⟩ tree
      (KeyScan.seek (treeKeys tree) keyCur.sortKey true) keyCur := by
  have hcursor : hammerBtreeFirst tree keyCur range.keyEnd = ⟨lookupIndex tree keyCur, true⟩ := by
    unfold hammerBtreeFirst
    cases hammerBtreeLookup tree keyCur with
    | some => rfl
    | none =>
      simp only [hammerBtreeIterate, iterateIndex_clear]
      cases tree[lookupIndex tree keyCur]? with
      | none => rfl
      | some elm => simp only; split_ifs <;> rfl
  rw [hcursor]
  refine ⟨rfl, ?_, rfl, hordered, lookupIndex_le _ _⟩
  simp only [MirrorTarget.scan, treeKeys_drop_lookupIndex, seek]

end DragonFly.Hammer
