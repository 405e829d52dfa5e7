import Mathlib

/-!
# HAMMER B-Tree elements

The key fields that order a HAMMER B-Tree, the comparison and visibility
functions over them, and the search of a node.  A `create_tid` of zero compares
as positive infinity.
-/

namespace DragonFly.Hammer

structure HammerBaseElm where
  localization : ℕ
  objId : ℤ
  recType : ℕ
  key : ℤ
  createTid : ℕ
  deleteTid : ℕ
  deriving DecidableEq

structure HammerBtreeLeafElm where
  base : HammerBaseElm
  data : List UInt8
  deriving DecidableEq

def hammerRectypeConfig : ℕ := 0x0017

def hammerBtreeCmp (key1 key2 : HammerBaseElm) : ℤ :=
  if key1.localization < key2.localization then -5
  else if key1.localization > key2.localization then 5
  else if key1.objId < key2.objId then -4
  else if key1.objId > key2.objId then 4
  else if key1.recType < key2.recType then -3
  else if key1.recType > key2.recType then 3
  else if key1.key < key2.key then -2
  else if key1.key > key2.key then 2
  else if key1.createTid = 0 then
    if key2.createTid = 0 then 0 else 1
  else if key2.createTid = 0 then -1
  else if key1.createTid < key2.createTid then -1
  else if key1.createTid > key2.createTid then 1
  else 0

def hammerBtreeChkts (asof : ℕ) (base : HammerBaseElm) : ℤ :=
  if asof = 0 then
    if base.deleteTid ≠ 0 then 1 else 0
  else if asof < base.createTid then -1
  else if base.deleteTid ≠ 0 ∧ asof ≥ base.deleteTid then 1
  else 0

/-! ## The order behind the comparison -/

abbrev SortKey := ℕ ×ₗ ℤ ×ₗ ℕ ×ₗ ℤ ×ₗ WithTop ℕ

instance : LawfulBEq SortKey := inferInstance

def tidRank (tid : ℕ) : WithTop ℕ :=
  if tid = 0 then ⊤ else tid

namespace HammerBaseElm

def sortKey (base : HammerBaseElm) : SortKey :=
  toLex (base.localization, toLex (base.objId, toLex (base.recType,
    toLex (base.key, tidRank base.createTid))))

end HammerBaseElm

theorem tidRank_lt_iff (a b : ℕ) : tidRank a < tidRank b ↔ a ≠ 0 ∧ (b = 0 ∨ a < b) := by
  unfold tidRank
  by_cases ha : a = 0 <;> by_cases hb : b = 0 <;> simp [ha, hb]

theorem tidRank_injective : Function.Injective tidRank := by
  intro a b h
  unfold tidRank at h
  by_cases ha : a = 0 <;> by_cases hb : b = 0 <;> simp_all

variable (a b : HammerBaseElm)

theorem sortKey_lt_iff :
    a.sortKey < b.sortKey ↔ a.localization < b.localization ∨ a.localization = b.localization ∧
        (a.objId < b.objId ∨ a.objId = b.objId ∧ (a.recType < b.recType ∨ a.recType = b.recType ∧
            (a.key < b.key ∨ a.key = b.key ∧ tidRank a.createTid < tidRank b.createTid))) := by
  simp only [HammerBaseElm.sortKey, Prod.Lex.toLex_lt_toLex]

theorem sortKey_eq_iff :
    a.sortKey = b.sortKey ↔ a.localization = b.localization ∧ a.objId = b.objId ∧
        a.recType = b.recType ∧ a.key = b.key ∧ a.createTid = b.createTid := by
  simp only [HammerBaseElm.sortKey, EmbeddingLike.apply_eq_iff_eq, Prod.mk.injEq,
    tidRank_injective.eq_iff]

theorem cmpField_neg_iff [LinearOrder α] (x y : α) (n r : ℤ) [Decidable (x < y)] [Decidable (x > y)]
    (hn : 0 < n) : (if x < y then -n else if x > y then n else r) < 0 ↔ x < y ∨ x = y ∧ r < 0 := by
  rcases lt_trichotomy x y with h | h | h
  · simp [h, hn]
  · simp [h]
  · simp [h, h.not_gt, h.ne', hn.le]

theorem cmpField_eq_zero_iff [LinearOrder α] (x y : α) (n r : ℤ) [Decidable (x < y)]
    [Decidable (x > y)] (hn : 0 < n) :
    (if x < y then -n else if x > y then n else r) = 0 ↔ x = y ∧ r = 0 := by
  rcases lt_trichotomy x y with h | h | h
  · simp [h, h.ne, hn.ne']
  · simp [h]
  · simp [h, h.not_gt, h.ne', hn.ne']

theorem cmpTid_neg_iff (x y : ℕ) :
    (if x = 0 then if y = 0 then 0 else 1
      else if y = 0 then -1
      else if x < y then -1 else if x > y then 1 else (0 : ℤ)) < 0 ↔ tidRank x < tidRank y := by
  rw [tidRank_lt_iff]
  split_ifs <;> omega

theorem cmpTid_eq_zero_iff (x y : ℕ) :
    (if x = 0 then if y = 0 then 0 else 1
      else if y = 0 then -1
      else if x < y then -1 else if x > y then 1 else (0 : ℤ)) = 0 ↔ x = y := by
  split_ifs <;> simp <;> omega

theorem hammerBtreeCmp_neg_iff : hammerBtreeCmp a b < 0 ↔ a.sortKey < b.sortKey := by
  rw [sortKey_lt_iff]
  unfold hammerBtreeCmp
  rw [cmpField_neg_iff _ _ 5 _ (by norm_num), cmpField_neg_iff _ _ 4 _ (by norm_num),
    cmpField_neg_iff _ _ 3 _ (by norm_num), cmpField_neg_iff _ _ 2 _ (by norm_num),
    cmpTid_neg_iff]

theorem hammerBtreeCmp_eq_zero_iff : hammerBtreeCmp a b = 0 ↔ a.sortKey = b.sortKey := by
  rw [sortKey_eq_iff]
  unfold hammerBtreeCmp
  rw [cmpField_eq_zero_iff _ _ 5 _ (by norm_num), cmpField_eq_zero_iff _ _ 4 _ (by norm_num),
    cmpField_eq_zero_iff _ _ 3 _ (by norm_num), cmpField_eq_zero_iff _ _ 2 _ (by norm_num),
    cmpTid_eq_zero_iff]

theorem hammerBtreeCmp_pos_iff : 0 < hammerBtreeCmp a b ↔ b.sortKey < a.sortKey := by
  have hneg := hammerBtreeCmp_neg_iff a b
  have hzero := hammerBtreeCmp_eq_zero_iff a b
  constructor
  · intro hpos
    have hnlt : ¬a.sortKey < b.sortKey := fun h => by have := hneg.mpr h; omega
    have hne : a.sortKey ≠ b.sortKey := fun h => by have := hzero.mpr h; omega
    exact lt_of_le_of_ne (not_lt.mp hnlt) (Ne.symm hne)
  · intro hlt
    by_contra hle
    rcases (by omega : hammerBtreeCmp a b < 0 ∨ hammerBtreeCmp a b = 0) with h | h
    · exact lt_asymm hlt (hneg.mp h)
    · exact hlt.ne' (hzero.mp h)

/-! ## Searching a node

`hammer_btree_search_node` halves the range down to four elements and leaves the
rest to a linear scan, which `hammer_btree_get_parent` starts at its result. -/

structure HammerBtreeElm where
  base : HammerBaseElm
  subtreeOffset : ℕ

structure HammerNodeOndisk where
  count : ℕ
  elms : ℕ → HammerBtreeElm

structure HammerNode where
  nodeOffset : ℕ
  ondisk : HammerNodeOndisk

variable (elm : HammerBaseElm) (node : HammerNodeOndisk)

/-- The loop of `hammer_btree_search_node` on its variables `b` and `s`. -/
def searchNodeLoop (b s : ℕ) : ℕ :=
  if 4 < s - b then
    let i := b + (s - b) / 2
    if hammerBtreeCmp elm (node.elms i).base ≤ 1 then searchNodeLoop b i
    else searchNodeLoop i s
  else b
termination_by s - b

def hammerBtreeSearchNode : ℕ :=
  searchNodeLoop elm node 0 node.count

def linearScan (stop : ℕ → Bool) (count i : ℕ) : ℕ :=
  if i < count ∧ stop i = false then linearScan stop count (i + 1) else i
termination_by count - i

def edeadlk : ℕ := 11

/-- `hammer_btree_get_parent`: `parent` is what `hammer_get_node` answers and
`lockFails` what `hammer_lock_ex_try` answers.  The index `none` is the panic. -/
def hammerBtreeGetParent (parent : Except ℕ HammerNodeOndisk) (node : HammerNode)
    (tryExclusive lockFails : Bool) : Except ℕ (Option ℕ) :=
  match parent with
  | .error error => .error error
  | .ok parent =>
    if tryExclusive && lockFails then .error edeadlk
    else
      let start := if node.ondisk.count ≠ 0 then
        hammerBtreeSearchNode (node.ondisk.elms 0).base parent else 0
      let i := linearScan (fun i => (parent.elms i).subtreeOffset = node.nodeOffset)
        parent.count start
      .ok (if i = parent.count then none else some i)

def HammerNodeOndisk.Sorted (node : HammerNodeOndisk) : Prop :=
  ∀ i j, i < j → j < node.count → hammerBtreeCmp (node.elms i).base (node.elms j).base ≤ 0

/-- Element `c` of the parent is the link to `child`, and the child's first key
lies before the element that follows. -/
structure HammerNodeOndisk.Links (parent : HammerNodeOndisk) (child : HammerNode) (c : ℕ) :
    Prop where
  sorted : parent.Sorted
  lt_count : c < parent.count
  offset_iff : ∀ i < parent.count, (parent.elms i).subtreeOffset = child.nodeOffset ↔ i = c
  first_lt : child.ondisk.count ≠ 0 → c + 1 < parent.count →
    hammerBtreeCmp (child.ondisk.elms 0).base (parent.elms (c + 1)).base < 0

theorem field_one_lt_iff [LinearOrder α] (x y : α) (n : ℤ) {r r' : ℤ} [Decidable (x < y)]
    [Decidable (x > y)] (hn : 1 < n) (h : 1 < r ↔ 0 < r') :
    1 < (if x < y then -n else if x > y then n else r) ↔
      0 < (if x < y then -n else if x > y then n else r') := by
  split_ifs <;> omega

/-- A result above one is a result above zero against an infinite `create_tid`. -/
theorem one_lt_cmp_iff :
    1 < hammerBtreeCmp a b ↔ 0 < hammerBtreeCmp a { b with createTid := 0 } := by
  unfold hammerBtreeCmp
  apply field_one_lt_iff _ _ 5 (by norm_num)
  apply field_one_lt_iff _ _ 4 (by norm_num)
  apply field_one_lt_iff _ _ 3 (by norm_num)
  apply field_one_lt_iff _ _ 2 (by norm_num)
  dsimp only
  split_ifs <;> omega

theorem one_lt_cmp_of_le {key e f : HammerBaseElm} (hle : hammerBtreeCmp e f ≤ 0)
    (hkey : 1 < hammerBtreeCmp key f) : 1 < hammerBtreeCmp key e := by
  rw [one_lt_cmp_iff, hammerBtreeCmp_pos_iff] at hkey ⊢
  have hnot : ¬f.sortKey < e.sortKey := by
    rw [← hammerBtreeCmp_pos_iff]
    omega
  refine lt_of_le_of_lt (not_lt.mp fun hlt => hnot ?_) hkey
  simp only [sortKey_lt_iff, lt_irrefl, and_false, or_false] at hlt
  rw [sortKey_lt_iff]
  tauto

/-- The search only moves `b` to an element that compares above one. -/
theorem searchNodeLoop_spec (b s : ℕ) (hs : s ≤ node.count)
    (hb : b = 0 ∨ b < node.count ∧ 1 < hammerBtreeCmp elm (node.elms b).base) :
    searchNodeLoop elm node b s = 0 ∨ searchNodeLoop elm node b s < node.count ∧
      1 < hammerBtreeCmp elm (node.elms (searchNodeLoop elm node b s)).base := by
  fun_induction searchNodeLoop elm node b s with
  | case1 b s hlong i hcmp ih => exact ih (by omega) hb
  | case2 b s hlong i hcmp ih => exact ih hs (.inr ⟨by omega, not_le.mp hcmp⟩)
  | case3 b s hshort => exact hb

theorem searchNode_spec :
    hammerBtreeSearchNode elm node = 0 ∨ hammerBtreeSearchNode elm node < node.count ∧
      1 < hammerBtreeCmp elm (node.elms (hammerBtreeSearchNode elm node)).base :=
  searchNodeLoop_spec elm node 0 node.count le_rfl (.inl rfl)

theorem searchNode_before (hsorted : node.Sorted) :
    hammerBtreeSearchNode elm node ≤ node.count ∧ ∀ j < hammerBtreeSearchNode elm node,
      1 < hammerBtreeCmp elm (node.elms j).base := by
  rcases searchNode_spec elm node with h | ⟨hlt, hcmp⟩
  · simp [h]
  · exact ⟨hlt.le, fun j hj => one_lt_cmp_of_le (hsorted j _ hj hlt) hcmp⟩

/-- A scan may start anywhere before its first stop. -/
theorem linearScan_skip (stop : ℕ → Bool) {count i j : ℕ} (hij : i ≤ j) (hj : j ≤ count)
    (hskip : ∀ k, i ≤ k → k < j → stop k = false) :
    linearScan stop count i = linearScan stop count j := by
  induction j, hij using Nat.le_induction with
  | base => rfl
  | succ j hij ih =>
    rw [ih (by omega) fun k hk hkj => hskip k hk (by omega), linearScan.eq_1 stop count j,
      if_pos ⟨by omega, hskip j hij (by omega)⟩]

theorem linearScan_stops (stop : ℕ → Bool) {count c i : ℕ} (hic : i ≤ c) (hc : c < count)
    (hstop : ∀ k < count, stop k = true ↔ k = c) : linearScan stop count i = c := by
  have hskip : ∀ k, i ≤ k → k < c → stop k = false := by
    intro k _ hk
    have hne := (hstop k (by omega)).not.mpr (by omega)
    simpa using hne
  have hat := (hstop c hc).mpr rfl
  rw [linearScan_skip stop hic hc.le hskip, linearScan.eq_1, if_neg (by simp [hat])]

theorem search_start_le {parent : HammerNodeOndisk} {child : HammerNode} {c : ℕ}
    (h : parent.Links child c) (hcount : child.ondisk.count ≠ 0) :
    hammerBtreeSearchNode (child.ondisk.elms 0).base parent ≤ c := by
  rcases searchNode_spec (child.ondisk.elms 0).base parent with hzero | ⟨hin, hcmp⟩
  · omega
  -- past `c`, the element found would not be below the element after `c`
  by_contra hpast
  have hfirst := h.first_lt hcount (by omega)
  rcases (Order.add_one_le_of_lt (not_le.mp hpast)).eq_or_lt with hnext | hnext
  · rw [← hnext] at hcmp
    omega
  · have hkey := one_lt_cmp_of_le (h.sorted _ _ hnext hin) hcmp
    omega

/-- The shortcut search passes over elements above one only, so a scan from its
result ends where a scan from zero does, and the link to a child is found. -/
theorem search_shortcut_agrees :
    (∀ (node : HammerNodeOndisk) (elm : HammerBaseElm), node.Sorted →
      (∀ j < hammerBtreeSearchNode elm node, 1 < hammerBtreeCmp elm (node.elms j).base) ∧
      linearScan (fun i => hammerBtreeCmp elm (node.elms i).base ≤ 1) node.count
          (hammerBtreeSearchNode elm node) =
        linearScan (fun i => hammerBtreeCmp elm (node.elms i).base ≤ 1) node.count 0) ∧
    ∀ (parent : HammerNodeOndisk) (child : HammerNode) (c : ℕ) (tryExclusive lockFails : Bool),
      parent.Links child c → (tryExclusive && lockFails) = false →
      hammerBtreeGetParent (.ok parent) child tryExclusive lockFails = .ok (some c) := by
  constructor
  · intro node elm hsorted
    obtain ⟨hle, hbefore⟩ := searchNode_before elm node hsorted
    refine ⟨hbefore, (linearScan_skip _ (Nat.zero_le _) hle ?_).symm⟩
    intro k _ hk
    simpa using hbefore k hk
  · intro parent child c tryExclusive lockFails h hlock
    have hstart : (if child.ondisk.count ≠ 0 then
        hammerBtreeSearchNode (child.ondisk.elms 0).base parent else 0) ≤ c := by
      split_ifs with hcount
      · exact search_start_le h hcount
      · exact Nat.zero_le c
    have hscan := linearScan_stops
      (fun i => decide ((parent.elms i).subtreeOffset = child.nodeOffset)) hstart h.lt_count
      fun k hk => by simpa using h.offset_iff k hk
    simp only [hammerBtreeGetParent, hlock, Bool.false_eq_true, if_false, hscan,
      if_neg h.lt_count.ne]

/-- A parent long enough to be searched, and a child whose first key is in the gap
after the parent's element. -/
theorem search_shortcut_agrees_sixth_child :
    hammerBtreeGetParent (.ok ⟨9, fun i => ⟨⟨0, 4 * i, 0, 0, 1, 0⟩, i⟩⟩)
      ⟨5, ⟨1, fun _ => ⟨⟨0, 22, 0, 0, 1, 0⟩, 0⟩⟩⟩ false false = .ok (some 5) := by
  refine search_shortcut_agrees.2 _ _ 5 false false ⟨?_, by decide, by simp, by decide⟩ rfl
  intro i j hij _
  simp [hammerBtreeCmp, hij]

end DragonFly.Hammer
