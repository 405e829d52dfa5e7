import DragonFly.BlistInvariant

/-!
# Hints of a blist

An allocation never crosses a leaf, so a hint is about runs of free blocks inside
one leaf.  A hint is sound when no such run is longer.  `Node` collects all that is
true of a node, and `Sub` all that is true below a meta node that is not collapsed.
-/

namespace DragonFly.Kern

open BitRange Finset

/-- The `count` blocks from `start` on are free and lie in one leaf. -/
structure LeafRun (free : Finset ℕ) (start count : ℕ) : Prop where
  inLeaf : start % blistBmapRadix + count ≤ blistBmapRadix
  isFree : Ico start (start + count) ⊆ free

def leafEnd (blk : ℕ) : ℕ :=
  (blk / blistBmapRadix + 1) * blistBmapRadix

def HintSound (hint : ℤ) (free : Finset ℕ) : Prop :=
  ∀ start count, LeafRun free start count → 1 ≤ count → (count : ℤ) ≤ hint

/-- Every node has a sound hint, apart from those below a collapsed node. -/
def Hinted (root : Memory) : ℕ → ℕ → ℕ → ℕ → Finset ℕ → Prop
  | 0, scan, _, _, free => HintSound (root scan).bmBighint free
  | level + 1, scan, blk, n, free =>
    HintSound (root scan).bmBighint free ∧ (free ≠ ∅ → free.card ≠ radix (level + 1) →
        ∀ j < children level n, Hinted root level (child level scan j) (blk + j * radix level)
            (childBlocks level n j) (free ∩ childRange level blk j))

/-- No leaf that ends after `blkat` has `count` free blocks in a row. -/
def NoRun (free : Finset ℕ) (count : ℕ) (blkat : ℤ) : Prop :=
  ∀ start, LeafRun free start count → (leafEnd start : ℤ) ≤ blkat

/-! ## Runs inside a leaf -/

variable {free free' : Finset ℕ} {start count : ℕ}

theorem LeafRun.mono (h : LeafRun free start count) (hsub : free ⊆ free') :
    LeafRun free' start count :=
  ⟨h.inLeaf, h.isFree.trans hsub⟩

theorem LeafRun.shorten (h : LeafRun free start count') (hle : count ≤ count') :
    LeafRun free start count := by
  constructor
  · exact (Nat.add_le_add_left hle _).trans h.inLeaf
  · have hshort : Ico start (start + count) ⊆ Ico start (start + count') :=
      Ico_subset_Ico le_rfl (Nat.add_le_add_left hle _)
    exact hshort.trans h.isFree

theorem LeafRun.count_le (h : LeafRun free start count) : count ≤ free.card := by
  have hcard := card_le_card h.isFree
  rwa [Nat.card_Ico, Nat.add_sub_cancel_left] at hcard

theorem LeafRun.count_le_radix (h : LeafRun free start count) : count ≤ blistBmapRadix :=
  (Nat.le_add_left _ _).trans h.inLeaf

theorem LeafRun.stop_le_leafEnd (h : LeafRun free start count) : start + count ≤ leafEnd start := by
  have hin := h.inLeaf
  simp only [leafEnd, blistBmapRadix] at hin ⊢
  omega

variable {blk : ℕ}

theorem leafEnd_le (level : ℕ) (halign : 32 ∣ blk) (hlt : start < blk + radix level) :
    leafEnd start ≤ blk + radix level := by
  have hstop : 32 ∣ blk + radix level := halign.add ⟨16 ^ level, rfl⟩
  obtain ⟨k, hk⟩ := hstop
  rw [hk] at hlt ⊢
  simp only [leafEnd, blistBmapRadix]
  omega

variable {level : ℕ}

theorem dvd_childBlock (halign : 32 ∣ blk) (j : ℕ) : 32 ∣ blk + j * radix level :=
  halign.add (Dvd.dvd.mul_left ⟨16 ^ level, rfl⟩ j)

theorem LeafRun.in_child (level : ℕ) (hsub : free ⊆ Ico blk (blk + n)) (halign : 32 ∣ blk)
    (hcount : 1 ≤ count) (h : LeafRun free start count) :
    ∃ j < children level n, LeafRun (free ∩ childRange level blk j) start count := by
  have hstart : start ∈ Ico blk (blk + n) := by
    apply hsub
    apply h.isFree
    rw [mem_Ico]
    omega
  rw [mem_Ico] at hstart
  have hpos := radix_pos level
  have hdiv := Nat.div_mul_le_self (start - blk) (radix level)
  have hlt := Nat.lt_mul_div_succ (start - blk) hpos
  rw [Nat.mul_comm, Nat.succ_mul] at hlt
  refine ⟨(start - blk) / radix level, lt_children_iff.mpr (by omega), ?_⟩
  constructor
  · exact h.inLeaf
  · apply subset_inter h.isFree
    have hend : leafEnd start ≤ blk + (start - blk) / radix level * radix level + radix level :=
      leafEnd_le level (dvd_childBlock halign _) (by omega)
    have hstop := h.stop_le_leafEnd
    exact Ico_subset_Ico (by omega) (by omega)

/-! ## Sound hints -/

theorem HintSound.mono (h : HintSound hint free) (hsub : free' ⊆ free) : HintSound hint free' :=
  fun start count hrun => h start count (hrun.mono hsub)

theorem HintSound.raise (h : HintSound hint free) (hle : hint ≤ hint') : HintSound hint' free :=
  fun start count hrun hcount => (h start count hrun hcount).trans hle

theorem hintSound_of_card (hle : (free.card : ℤ) ≤ hint) : HintSound hint free := by
  intro start count hrun _
  have hcount := hrun.count_le
  omega

theorem hintSound_of_radix (free : Finset ℕ) (hle : 32 ≤ hint) : HintSound hint free := by
  intro start count hrun _
  have hcount := hrun.count_le_radix
  simp only [blistBmapRadix] at hcount
  omega

theorem hintSound_pred (hnone : ∀ start, ¬LeafRun free start count) :
    HintSound (count - 1) free := by
  intro start count' hrun _
  by_contra hlarge
  exact hnone start (hrun.shorten (by omega))

theorem hintSound_of_children (hsub : free ⊆ Ico blk (blk + n)) (halign : 32 ∣ blk)
    (h : ∀ j < children level n, HintSound hint (free ∩ childRange level blk j)) :
    HintSound hint free := by
  intro start count hrun hcount
  obtain ⟨j, hj, hchild⟩ := hrun.in_child level hsub halign hcount
  exact h j hj start count hchild hcount

/-! ## Hinted nodes -/

variable {root : Memory} {scan : ℕ}

theorem Hinted.hint (h : Hinted root level scan blk n free) :
    HintSound (root scan).bmBighint free := by
  cases level with
  | zero => exact h
  | succ level => exact h.1

theorem hinted_empty (hhint : 0 ≤ (root scan).bmBighint) : Hinted root level scan blk n ∅ := by
  have hsound : HintSound (root scan).bmBighint ∅ := hintSound_of_card (by simpa using hhint)
  cases level with
  | zero => exact hsound
  | succ level => exact ⟨hsound, fun hne => absurd rfl hne⟩

theorem Hinted.congr (hn : n ≤ radix level) (hagree : Agree root root' level scan)
    (h : Hinted root level scan blk n free) : Hinted root' level scan blk n free := by
  induction level generalizing scan blk n free with
  | zero =>
    unfold Hinted at h ⊢
    rw [hagree scan le_rfl (Nat.le_add_right _ _)]
    exact h
  | succ level ih =>
    have hle := children_le hn
    constructor
    · rw [hagree scan le_rfl (Nat.le_add_right _ _)]
      exact h.1
    · intro hne hcard j hj
      exact ih (childBlocks_le level n j) (hagree.child (by omega))
        (h.2 hne hcard j hj)

theorem hinted_setFree (hroot : root scan = setFree level node) :
    Hinted root level scan blk (radix level) (Ico blk (blk + radix level)) := by
  cases level with
  | zero =>
    apply hintSound_of_radix
    rw [hroot, setFree, if_pos rfl]
    rfl
  | succ level =>
    constructor
    · apply hintSound_of_radix
      rw [hroot, setFree, if_neg (Nat.succ_ne_zero level)]
      simp only
      exact_mod_cast bmapRadix_le_radix (level + 1)
    · intro _ hcard
      simp at hcard

/-! ## Nodes and their children -/

section Nodes

variable {root root' : Memory} {level scan blk n j : ℕ} {free free' : Finset ℕ}

structure Node (root : Memory) (level scan blk n : ℕ) (free : Finset ℕ) : Prop where
  shape : Shape root level scan n
  rep : Rep root level scan blk n free
  hinted : Hinted root level scan blk n free

/-- The children of a meta node that is neither ALL-ALLOCATED nor ALL-FREE. -/
structure Sub (root : Memory) (level scan blk n : ℕ) (free : Finset ℕ) : Prop where
  node : ∀ j < children level n,
    Node root level (child level scan j) (blk + j * radix level) (childBlocks level n j)
      (free ∩ childRange level blk j)
  terminator : children level n < blistMetaRadix →
    (root (child level scan (children level n))).bmBighint = -1

theorem Node.congr (hn : n ≤ radix level) (hagree : Agree root root' level scan)
    (h : Node root level scan blk n free) : Node root' level scan blk n free :=
  ⟨h.shape.congr hn hagree, h.rep.congr hn hagree, h.hinted.congr hn hagree⟩

theorem Sub.shape (h : Sub root level scan blk n free) : SubShape root level scan n :=
  ⟨fun j hj => (h.node j hj).shape, h.terminator⟩

theorem Sub.modify
    (hn : n ≤ radix (level + 1)) (h : Sub root level scan blk n free) (f : Blmeta → Blmeta) :
    Sub (root.modify scan f) level scan blk n free := by
  have hle := children_le hn
  have hagree := subAgree_modify root level scan f
  constructor
  · intro j hj
    exact (h.node j hj).congr (childBlocks_le level n j) (hagree.child (by omega))
  · exact (h.shape.congr hn hagree).terminator

theorem Sub.child_changed (h : Sub root level scan blk n free) (hj : j < children level n)
    (hframe : Frame root root' level (child level scan j))
    (hnode : Node root' level (child level scan j) (blk + j * radix level)
      (childBlocks level n j) (free' ∩ childRange level blk j))
    (hout : ∀ b, b ∉ childRange level blk j → (b ∈ free' ↔ b ∈ free)) :
    Sub root' level scan blk n free' := by
  constructor
  · intro i hi
    by_cases hij : i = j
    · subst hij
      exact hnode
    · have hsame : free' ∩ childRange level blk i = free ∩ childRange level blk i := by
        ext b
        simp only [mem_inter, and_congr_left_iff]
        intro hb
        exact hout b (childRange_disjoint hij hb)
      rw [hsame]
      exact (h.node i hi).congr (childBlocks_le level n i) (hframe.agree_sibling hij)
  · exact (h.shape.child_changed hj hframe hnode.shape).terminator

theorem Node.subset (h : Node root level scan blk n free) : free ⊆ Ico blk (blk + n) :=
  h.rep.subset

section

variable (h : Node root (level + 1) scan blk n free)
include h

theorem Node.subShape : SubShape root level scan n :=
  (shape_succ.mp h.shape).2

theorem Node.avail : (root scan).bmuAvail = free.card :=
  h.rep.2.1

theorem Node.sub
    (hne : free ≠ ∅) (hcard : free.card ≠ radix (level + 1)) : Sub root level scan blk n free := by
  constructor
  · intro j hj
    exact ⟨h.subShape.shape j hj, h.rep.2.2 hne hcard j hj, h.hinted.2 hne hcard j hj⟩
  · exact h.subShape.terminator

end

theorem Sub.toNode (h : Sub root level scan blk n free) (hsub : free ⊆ Ico blk (blk + n))
    (havail : (root scan).bmuAvail = free.card) (hnonneg : 0 ≤ (root scan).bmBighint)
    (hhint : HintSound (root scan).bmBighint free) : Node root (level + 1) scan blk n free := by
  refine ⟨shape_succ.mpr ⟨hnonneg, h.shape⟩, ⟨hsub, havail, ?_⟩, ⟨hhint, ?_⟩⟩
  · exact fun _ _ j hj => (h.node j hj).rep
  · exact fun _ _ j hj => (h.node j hj).hinted

theorem node_empty (h : SubShape root level scan n) (havail : (root scan).bmuAvail = 0)
    (hnonneg : 0 ≤ (root scan).bmBighint) : Node root (level + 1) scan blk n ∅ := by
  refine ⟨shape_succ.mpr ⟨hnonneg, h⟩, ⟨empty_subset _, ?_, ?_⟩, hinted_empty hnonneg⟩
  · simpa using havail
  · exact fun hne => absurd rfl hne

theorem node_full (h : SubShape root level scan n) (hsub : free ⊆ Ico blk (blk + n))
    (hcard : free.card = radix (level + 1)) (havail : (root scan).bmuAvail = radix (level + 1))
    (hhint : (root scan).bmBighint = radix (level + 1)) :
    Node root (level + 1) scan blk n free := by
  refine ⟨shape_succ.mpr ⟨by omega, h⟩, ⟨hsub, by omega, ?_⟩, ⟨?_, ?_⟩⟩
  · exact fun _ hne => absurd hcard hne
  · exact hintSound_of_card (by omega)
  · exact fun _ hne => absurd hcard hne

theorem setFree_bighint (level : ℕ) (node : Blmeta) : 0 ≤ (setFree level node).bmBighint := by
  unfold setFree
  split_ifs <;> simp

theorem Sub.initFree (hn : n ≤ radix (level + 1)) (hshape : SubShape root level scan n)
    (hsub : free ⊆ Ico blk (blk + n)) (hcard : free.card = radix (level + 1)) :
    let root' := initSublevel (setFree level) (nextSkip level) blistMetaRadix root (scan + 1)
    Sub root' level scan blk n free ∧ Frame root root' (level + 1) scan ∧
      root' scan = root scan := by
  intro root'
  obtain ⟨hshape', hframe, hscan, hchild⟩ := hshape.initSublevel hn (setFree_bighint level)
  obtain ⟨rfl, rfl⟩ := eq_of_card_radix hn hsub hcard
  refine ⟨⟨?_, hshape'.terminator⟩, hframe, hscan⟩
  intro j hj
  have hj16 : j < 16 := by
    rwa [children_radix] at hj
  have hshapej := hshape'.shape j hj
  rw [childBlocks_radix hj16] at hshapej ⊢
  rw [inter_childRange_of_full hj16]
  exact ⟨hshapej, rep_setFree (hchild j hj), hinted_setFree (hchild j hj)⟩

theorem setAllocated_bighint (level : ℕ) (node : Blmeta) :
    0 ≤ (setAllocated level node).bmBighint := by
  unfold setAllocated
  split_ifs <;> simp

theorem Sub.initAllocated
    (blk : ℕ) (hn : n ≤ radix (level + 1)) (hshape : SubShape root level scan n) :
    let root' := initSublevel (setAllocated level) (nextSkip level) blistMetaRadix root
      (scan + 1)
    Sub root' level scan blk n ∅ ∧ Frame root root' (level + 1) scan ∧ root' scan = root scan := by
  intro root'
  obtain ⟨hshape', hframe, hscan, hchild⟩ := hshape.initSublevel hn (setAllocated_bighint level)
  refine ⟨⟨?_, hshape'.terminator⟩, hframe, hscan⟩
  intro j hj
  have hshapej := hshape'.shape j hj
  rw [empty_inter]
  exact ⟨hshapej, rep_setAllocated (hchild j hj), hinted_empty hshapej.bighint⟩

end Nodes

end DragonFly.Kern
