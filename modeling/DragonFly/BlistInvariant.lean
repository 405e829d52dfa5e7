import DragonFly.BlistModel

/-!
# What a blist represents

`Shape` says where the terminators are: the children of a node exist up to the
last block of the list.  It holds in every state, also below collapsed nodes.
`Rep` says which blocks are free.  A meta node that is ALL-ALLOCATED or ALL-FREE
says nothing about its children.
-/

namespace DragonFly.Kern

open BitRange Finset

/-- The record of child `j` of the node at `scan`, a child of level `level`. -/
def child (level scan j : ℕ) : ℕ :=
  scan + (j * nextSkip level + 1)

/-- How many children of level `level` it takes to cover `count` blocks. -/
def children (level count : ℕ) : ℕ :=
  (count + radix level - 1) / radix level

def childBlocks (level count j : ℕ) : ℕ :=
  min (radix level) (count - j * radix level)

def childRange (level blk j : ℕ) : Finset ℕ :=
  Ico (blk + j * radix level) (blk + j * radix level + radix level)

def Shape (root : Memory) : ℕ → ℕ → ℕ → Prop
  | 0, scan, _ => 0 ≤ (root scan).bmBighint
  | level + 1, scan, count =>
    0 ≤ (root scan).bmBighint ∧ (∀ j < children level count, Shape root level (child level scan j)
          (childBlocks level count j)) ∧
      (children level count < blistMetaRadix →
        (root (child level scan (children level count))).bmBighint = -1)

/-- The node of the given level at `scan`, whose first block is `blk` and which
covers `count` blocks of the list, has exactly the free blocks `free`. -/
def Rep (root : Memory) : ℕ → ℕ → ℕ → ℕ → Finset ℕ → Prop
  | 0, scan, blk, count, free =>
    free ⊆ Ico blk (blk + count) ∧ ∀ b, b ∈ free ↔ blk ≤ b ∧ b - blk ∈ bits (root scan).bmuBitmap
  | level + 1, scan, blk, count, free =>
    free ⊆ Ico blk (blk + count) ∧ (root scan).bmuAvail = free.card ∧
      (free ≠ ∅ → free.card ≠ radix (level + 1) → ∀ j < children level count,
          Rep root level (child level scan j) (blk + j * radix level) (childBlocks level count j)
            (free ∩ childRange level blk j))

/-! ## Arithmetic of levels -/

theorem radix_succ (level : ℕ) : radix (level + 1) = 16 * radix level := by
  simp only [radix, blistMetaRadix, pow_succ]
  ring

theorem radix_pos (level : ℕ) : 0 < radix level := by
  simp [radix, blistBmapRadix, blistMetaRadix]

theorem bmapRadix_le_radix (level : ℕ) : 32 ≤ radix level := by
  simp only [radix, blistBmapRadix, blistMetaRadix]
  exact Nat.le_mul_of_pos_right 32 (by positivity)

theorem skip_succ (level : ℕ) : skip (level + 1) = 16 * nextSkip level := by
  simp only [skip, nextSkip, blistMetaRadix]
  ring

theorem scan_lt_child (level scan j : ℕ) : scan < child level scan j := by
  unfold child
  omega

theorem child_add_skip (level scan j : ℕ) :
    child level scan j + skip level = scan + (j + 1) * nextSkip level := by
  unfold child nextSkip
  ring

theorem child_succ (level scan j : ℕ) :
    child level scan (j + 1) = child level scan j + nextSkip level := by
  unfold child
  ring

variable {i j level scan count blk : ℕ} {root root' : Memory} {free : Finset ℕ}

theorem child_lt_child (level scan : ℕ) (hij : i < j) :
    child level scan i + skip level < child level scan j := by
  rw [child_add_skip]
  have hmul : (i + 1) * nextSkip level ≤ j * nextSkip level := Nat.mul_le_mul_right _ hij
  unfold child
  omega

theorem child_le_skip (level scan : ℕ) (hj : j < 16) :
    child level scan j + skip level ≤ scan + skip (level + 1) := by
  rw [child_add_skip, skip_succ]
  have hmul : (j + 1) * nextSkip level ≤ 16 * nextSkip level := Nat.mul_le_mul_right _ hj
  omega

theorem child_injective (h : child level scan i = child level scan j) : i = j := by
  rcases Nat.lt_trichotomy i j with hlt | heq | hgt
  · have hne := child_lt_child level scan hlt
    omega
  · exact heq
  · have hne := child_lt_child level scan hgt
    omega

theorem children_le (hcount : count ≤ radix (level + 1)) : children level count ≤ 16 := by
  have hpos := radix_pos level
  rw [radix_succ] at hcount
  unfold children
  rw [Nat.div_le_iff_le_mul_add_pred hpos]
  omega

theorem lt_children_iff : j < children level count ↔ j * radix level < count := by
  have hpos := radix_pos level
  unfold children
  rw [← Nat.succ_le_iff, Nat.le_div_iff_mul_le hpos, Nat.succ_mul]
  omega

theorem children_radix (level : ℕ) : children level (radix (level + 1)) = 16 := by
  apply Nat.le_antisymm (children_le le_rfl)
  by_contra hlt
  have hnot : ¬15 < children level (radix (level + 1)) := by omega
  rw [lt_children_iff, radix_succ] at hnot
  have hpos := radix_pos level
  omega

theorem childBlocks_le (level count j : ℕ) : childBlocks level count j ≤ radix level :=
  Nat.min_le_left _ _

theorem childBlocks_radix (hj : j < 16) :
    childBlocks level (radix (level + 1)) j = radix level := by
  unfold childBlocks
  rw [radix_succ]
  have hmul : (j + 1) * radix level ≤ 16 * radix level := Nat.mul_le_mul_right _ hj
  rw [Nat.succ_mul] at hmul
  omega

theorem mem_childRange :
    b ∈ childRange level blk j ↔ blk + j * radix level ≤ b ∧
        b < blk + j * radix level + radix level := by
  unfold childRange
  rw [mem_Ico]

theorem childRange_disjoint (hij : i ≠ j) (hi : b ∈ childRange level blk i) :
    b ∉ childRange level blk j := by
  rw [mem_childRange] at hi ⊢
  rcases Nat.lt_or_gt_of_ne hij with h | h
  · have hmul : (i + 1) * radix level ≤ j * radix level := Nat.mul_le_mul_right _ h
    rw [Nat.succ_mul] at hmul
    omega
  · have hmul : (j + 1) * radix level ≤ i * radix level := Nat.mul_le_mul_right _ h
    rw [Nat.succ_mul] at hmul
    omega

/-! ## Footprints

Records of any type in the layout of a tree. -/

section Footprints

variable {α : Type} {root root' root'' : ℕ → α}

def Agree (root root' : ℕ → α) (level scan : ℕ) : Prop :=
  ∀ i, scan ≤ i → i ≤ scan + skip level → root' i = root i

/-- Only records of the node at `scan` differ. -/
def Frame (root root' : ℕ → α) (level scan : ℕ) : Prop :=
  ∀ i, i < scan ∨ scan + skip level < i → root' i = root i

theorem Frame.refl (root : ℕ → α) (level scan : ℕ) : Frame root root level scan :=
  fun _ _ => rfl

theorem Frame.trans (h : Frame root root' level scan) (h' : Frame root' root'' level scan) :
    Frame root root'' level scan :=
  fun i hi => (h' i hi).trans (h i hi)

theorem Agree.trans (h : Agree root root' level scan) (h' : Agree root' root'' level scan) :
    Agree root root'' level scan :=
  fun i hle hge => (h' i hle hge).trans (h i hle hge)

theorem Agree.child (h : Agree root root' (level + 1) scan) (hj : j < 16) :
    Agree root root' level (child level scan j) := by
  intro i hle hge
  have hlt := scan_lt_child level scan j
  have hskip := child_le_skip level scan hj
  exact h i (by omega) (by omega)

variable (h : Frame root root' level (child level scan j))
include h

theorem Frame.of_child (hj : j < 16) : Frame root root' (level + 1) scan := by
  intro i hi
  have hlt := scan_lt_child level scan j
  have hskip := child_le_skip level scan hj
  exact h i (by omega)

theorem Frame.scan_of_child : root' scan = root scan :=
  h scan (Or.inl (scan_lt_child level scan j))

theorem Frame.agree_sibling (hij : i ≠ j) : Agree root root' level (child level scan i) := by
  intro x hle hge
  apply h
  rcases Nat.lt_or_gt_of_ne hij with hlt | hgt
  · have hchild := child_lt_child level scan hlt
    omega
  · have hchild := child_lt_child level scan hgt
    omega

end Footprints

theorem Memory.modify_same (root : Memory) (scan : ℕ) (f : Blmeta → Blmeta) :
    root.modify scan f scan = f (root scan) := by
  simp [Memory.modify]

theorem Memory.modify_of_ne (root : Memory) (f : Blmeta → Blmeta) (h : i ≠ scan) :
    root.modify scan f i = root i := by
  simp [Memory.modify, h]

theorem frame_modify (root : Memory) (level scan : ℕ) (f : Blmeta → Blmeta) :
    Frame root (root.modify scan f) level scan := by
  intro i hi
  exact root.modify_of_ne f (by omega)

theorem Shape.congr (hcount : count ≤ radix level) (hagree : Agree root root' level scan)
    (h : Shape root level scan count) : Shape root' level scan count := by
  induction level generalizing scan count with
  | zero =>
    unfold Shape at h ⊢
    rw [hagree scan le_rfl (Nat.le_add_right _ _)]
    exact h
  | succ level ih =>
    obtain ⟨hhint, hchildren, hterm⟩ := h
    have hle := children_le hcount
    refine ⟨?_, ?_, ?_⟩
    · rw [hagree scan le_rfl (Nat.le_add_right _ _)]
      exact hhint
    · intro j hj
      exact ih (childBlocks_le level count j) (hagree.child (by omega)) (hchildren j hj)
    · intro hlt
      have hagree' := hagree.child hlt
      rw [hagree' _ le_rfl (Nat.le_add_right _ _)]
      exact hterm hlt

theorem Rep.congr (hcount : count ≤ radix level) (hagree : Agree root root' level scan)
    (h : Rep root level scan blk count free) : Rep root' level scan blk count free := by
  induction level generalizing scan blk count free with
  | zero =>
    unfold Rep at h ⊢
    rw [hagree scan le_rfl (Nat.le_add_right _ _)]
    exact h
  | succ level ih =>
    obtain ⟨hsub, havail, hchildren⟩ := h
    have hle := children_le hcount
    refine ⟨hsub, ?_, ?_⟩
    · rw [hagree scan le_rfl (Nat.le_add_right _ _)]
      exact havail
    · intro hne hcard j hj
      exact ih (childBlocks_le level count j) (hagree.child (by omega)) (hchildren hne hcard j hj)

theorem Rep.subset (h : Rep root level scan blk count free) : free ⊆ Ico blk (blk + count) := by
  cases level with
  | zero | succ level => exact h.1

theorem Shape.bighint (h : Shape root level scan count) : 0 ≤ (root scan).bmBighint := by
  cases level with
  | zero => exact h
  | succ level => exact h.1

/-! ## The children of a meta node -/

/-- The children exist up to a terminator. -/
structure SubShape (root : Memory) (level scan count : ℕ) : Prop where
  shape : ∀ j < children level count,
    Shape root level (child level scan j) (childBlocks level count j)
  terminator : children level count < blistMetaRadix →
    (root (child level scan (children level count))).bmBighint = -1

theorem shape_succ :
    Shape root (level + 1) scan count ↔
      0 ≤ (root scan).bmBighint ∧ SubShape root level scan count := by
  constructor
  · rintro ⟨hhint, hshape, hterm⟩
    exact ⟨hhint, hshape, hterm⟩
  · rintro ⟨hhint, hsub⟩
    exact ⟨hhint, hsub.shape, hsub.terminator⟩

/-- Records of the children and of the terminator. -/
def SubAgree (root root' : Memory) (level scan : ℕ) : Prop :=
  ∀ i, scan < i → i ≤ scan + skip (level + 1) → root' i = root i

theorem SubAgree.child (h : SubAgree root root' level scan) (hj : j < 16) :
    Agree root root' level (child level scan j) := by
  intro i hle hge
  have hlt := scan_lt_child level scan j
  have hskip := child_le_skip level scan hj
  exact h i (by omega) (by omega)

theorem subAgree_modify (root : Memory) (level scan : ℕ) (f : Blmeta → Blmeta) :
    SubAgree root (root.modify scan f) level scan := by
  intro i hlt _
  exact root.modify_of_ne f (by omega)

theorem SubShape.congr
    (hcount : count ≤ radix (level + 1)) (hagree : SubAgree root root' level scan)
    (h : SubShape root level scan count) : SubShape root' level scan count := by
  have hle := children_le hcount
  constructor
  · intro j hj
    exact (h.shape j hj).congr (childBlocks_le level count j) (hagree.child (by omega))
  · intro hlt
    rw [hagree.child hlt _ le_rfl (Nat.le_add_right _ _)]
    exact h.terminator hlt

theorem SubShape.child_changed (h : SubShape root level scan count) (hj : j < children level count)
    (hframe : Frame root root' level (child level scan j))
    (hshape : Shape root' level (child level scan j)
      (childBlocks level count j)) : SubShape root' level scan count := by
  constructor
  · intro i hi
    by_cases hij : i = j
    · subst hij
      exact hshape
    · exact (h.shape i hi).congr (childBlocks_le level count i) (hframe.agree_sibling hij)
  · intro hlt
    have hne : children level count ≠ j := by omega
    rw [hframe.agree_sibling hne _ le_rfl (Nat.le_add_right _ _)]
    exact h.terminator hlt

/-! ## Collapsed nodes -/

theorem rep_setFree (hroot : root scan = setFree level node) :
    Rep root level scan blk (radix level) (Ico blk (blk + radix level)) := by
  cases level with
  | zero =>
    refine ⟨Finset.Subset.refl _, ?_⟩
    intro b
    rw [hroot, setFree, if_pos rfl, bits_allOnes]
    simp only [mem_Ico, mem_range, radix, blistBmapRadix, blistMetaRadix]
    omega
  | succ level =>
    refine ⟨Finset.Subset.refl _, ?_, ?_⟩
    · rw [hroot, setFree, if_neg (Nat.succ_ne_zero level)]
      simp
    · intro _ hcard
      simp at hcard

theorem rep_setAllocated (hroot : root scan = setAllocated level node) :
    Rep root level scan blk count ∅ := by
  cases level with
  | zero =>
    refine ⟨empty_subset _, ?_⟩
    intro b
    rw [hroot, setAllocated, if_pos rfl, bits_eq_empty.mpr rfl]
    simp
  | succ level =>
    refine ⟨empty_subset _, ?_, ?_⟩
    · rw [hroot, setAllocated, if_neg (Nat.succ_ne_zero level)]
      simp
    · intro hne
      exact absurd rfl hne

theorem Shape.own_changed (hcount : count ≤ radix level) (h : Shape root level scan count)
    (hsame : ∀ i, scan < i → i ≤ scan + skip level → root' i = root i)
    (hhint : 0 ≤ (root' scan).bmBighint) : Shape root' level scan count := by
  cases level with
  | zero => exact hhint
  | succ level =>
    rw [shape_succ] at h ⊢
    exact ⟨hhint, h.2.congr hcount hsame⟩

theorem initSublevel_apply (set : Blmeta → Blmeta) (root : Memory) (scan : ℕ)
    (hcount : count ≤ radix (level + 1)) (left : ℕ)
    (hleft : left + j = 16) (hj : j ≤ children level count)
    (hhint : ∀ k, j ≤ k → k < children level count → (root (child level scan k)).bmBighint ≠ -1)
    (hterm : children level count < 16 →
      (root (child level scan (children level count))).bmBighint = -1) :
    (∀ k, j ≤ k → k < children level count →
      initSublevel set (nextSkip level) left root (child level scan j)
          (child level scan k) = set (root (child level scan k))) ∧
      ∀ i, (∀ k, j ≤ k → k < children level count → i ≠ child level scan k) →
        initSublevel set (nextSkip level) left root (child level scan j) i = root i := by
  have hle := children_le hcount
  induction left generalizing j root with
  | zero =>
    constructor
    · intro k hjk hk
      omega
    · intro i _
      rfl
  | succ left ih =>
    by_cases hlast : j = children level count
    · -- the terminator stops the loop
      have hstop : initSublevel set (nextSkip level) (left + 1) root
          (child level scan j) = root := by
        unfold initSublevel
        rw [if_pos]
        rw [hlast]
        exact hterm (by omega)
      rw [hstop]
      constructor
      · intro k hjk hk
        omega
      · intro i _
        rfl
    · have hlt : j < children level count := by omega
      have hstep : initSublevel set (nextSkip level) (left + 1) root (child level scan j) =
            initSublevel set (nextSkip level) left (root.modify (child level scan j) set)
              (child level scan (j + 1)) := by
        rw [initSublevel, if_neg (hhint j le_rfl hlt), child_succ]
      have hne : ∀ k, j + 1 ≤ k → child level scan k ≠ child level scan j := by
        intro k hk heq
        have hkj := child_injective heq
        omega
      have hsame : ∀ k, j + 1 ≤ k → root.modify (child level scan j) set (child level scan k) =
            root (child level scan k) :=
        fun k hk => root.modify_of_ne set (hne k hk)
      obtain ⟨hset, hother⟩ := ih (root.modify (child level scan j) set)
        (by omega : left + (j + 1) = 16) hlt
        (by
          intro k hk hk'
          rw [hsame k hk]
          exact hhint k (by omega) hk')
        (by
          intro hlt'
          rw [hsame _ hlt]
          exact hterm hlt')
      rw [hstep]
      constructor
      · intro k hjk hk
        by_cases hkj : k = j
        · subst hkj
          rw [hother, Memory.modify_same]
          intro k' hk' _ heq
          exact hne k' hk' heq.symm
        · rw [hset k (by omega) hk, hsame k (by omega)]
      · intro i hi
        rw [hother i fun k hk hk' => hi k (by omega) hk', root.modify_of_ne set (hi j le_rfl hlt)]

theorem SubShape.initSublevel
    (hcount : count ≤ radix (level + 1)) (h : SubShape root level scan count)
    {set : Blmeta → Blmeta} (hset : ∀ node, 0 ≤ (set node).bmBighint) :
    let root' := Kern.initSublevel set (nextSkip level) blistMetaRadix root
      (scan + 1)
    SubShape root' level scan count ∧ Frame root root' (level + 1) scan ∧ root' scan = root scan ∧
      ∀ j < children level count, root' (child level scan j) = set (root (child level scan j)) := by
  intro root'
  have hle := children_le hcount
  have hfirst : child level scan 0 = scan + 1 := by
    simp [child]
  have hinit := initSublevel_apply set root scan hcount 16 (by rfl : 16 + 0 = 16) (Nat.zero_le _)
    (by
      intro k _ hk heq
      have hpos := (h.shape k hk).bighint
      omega)
    h.terminator
  rw [hfirst] at hinit
  have hchild : ∀ j < children level count,
      root' (child level scan j) = set (root (child level scan j)) :=
    fun j hj => hinit.1 j (Nat.zero_le _) hj
  have hother : ∀ i, (∀ k, 0 ≤ k → k < children level count →
      i ≠ child level scan k) → root' i = root i := hinit.2
  have hsame : ∀ j < children level count, ∀ i,
      child level scan j < i → i ≤ child level scan j + skip level → root' i = root i := by
    intro j hj i hlt hge
    apply hother
    intro k _ hk heq
    subst heq
    rcases Nat.lt_trichotomy j k with hjk | rfl | hjk
    · have hchild' := child_lt_child level scan hjk
      omega
    · omega
    · have hchild' := child_lt_child level scan hjk
      omega
  refine ⟨⟨?_, ?_⟩, ?_, ?_, hchild⟩
  · intro j hj
    refine (h.shape j hj).own_changed (childBlocks_le level count j) (hsame j hj) ?_
    rw [hchild j hj]
    exact hset _
  · intro hlt
    rw [hother]
    · exact h.terminator hlt
    · intro k _ hk heq
      have hkj := child_injective heq
      omega
  · intro i hi
    apply hother
    intro k _ hk heq
    have hlt := scan_lt_child level scan k
    have hskip := child_le_skip level scan (by omega : k < 16)
    omega
  · apply hother
    intro k _ _ heq
    have hlt := scan_lt_child level scan k
    omega

theorem eq_of_card_radix (hn : n ≤ radix level) (hsub : free ⊆ Ico blk (blk + n))
    (hcard : free.card = radix level) : n = radix level ∧ free = Ico blk (blk + radix level) := by
  have hle := card_le_card hsub
  rw [Nat.card_Ico, hcard] at hle
  have hnr : n = radix level := by omega
  refine ⟨hnr, ?_⟩
  rw [hnr] at hsub
  exact eq_of_subset_of_card_le hsub (by simp [hcard])

theorem inter_childRange_of_full (hj : j < 16) :
    Ico blk (blk + radix (level + 1)) ∩ childRange level blk j = childRange level blk j := by
  apply inter_eq_right.mpr
  intro b hb
  rw [mem_childRange] at hb
  rw [mem_Ico, radix_succ]
  have hmul : (j + 1) * radix level ≤ 16 * radix level := Nat.mul_le_mul_right _ hj
  rw [Nat.succ_mul] at hmul
  omega

end DragonFly.Kern
