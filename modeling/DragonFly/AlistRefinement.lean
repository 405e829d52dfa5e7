import DragonFly.AlistFreeing

/-!
# An alist is a set of free blocks

The abstract state is the set of free blocks.  Every alist reached from
`alist_create` by allocations and by freeing non-empty allocated ranges
represents the set that follows from these operations and their results.
-/

namespace DragonFly.Alst

open BitRange Finset BitVec Option
open Kern (radix skip nextSkip child childRange mem_childRange radix_succ
  radix_pos bmapRadix_le_radix scan_lt_child Agree Frame taken)

/-! ## Creation -/

variable {level blocks fuel count k : ℕ} {bl : Alist} {hinted : Prop}

theorem store_returns (root : Memory) (node : Almeta) (h : scan < records) :
    ∃ root', root.store records scan node = some root' :=
  ⟨_, if_pos h⟩

theorem store_eq {root : Memory} (h : root.store records scan node = some root') :
    Frame root root' level scan ∧ root' scan = node := by
  unfold Memory.store at h
  split_ifs at h
  rw [some.injEq] at h
  subst h
  exact ⟨frame_modify root level scan _, modify_same _ _ _⟩

theorem initScan_spec (hinit : ∀ root scan blk root', init root scan blk = some root' →
      Shape blocks root' level scan blk ∧ Frame root root' level scan)
    (scan blk left : ℕ) (hleft : left + j = 16)
    (hshape : ∀ i < j, blk + i * radix level < blocks →
      Shape blocks root level (child level scan i) (blk + i * radix level))
    (h : initScan records init level scan blk blocks left root j = some root') :
    (∀ i < 16, blk + i * radix level < blocks →
      Shape blocks root' level (child level scan i) (blk + i * radix level)) ∧
      Frame root root' (level + 1) scan ∧ root' scan = root scan := by
  induction left generalizing root j with
  | zero =>
    have hj : j = 16 := by omega
    rw [hj] at hshape
    unfold initScan at h
    rw [some.injEq] at h
    subst h
    exact ⟨hshape, Frame.refl _ _ _, rfl⟩
  | succ left ih =>
    have hj : j < 16 := by omega
    unfold initScan at h
    obtain ⟨root₁, hstep, h⟩ := bind_eq_some_iff.mp h
    -- child `j` has its records, whatever is written there
    have hchild : Frame root root₁ level (child level scan j) ∧
        (blk + j * radix level < blocks → Shape blocks root₁ level (child level scan j)
          (blk + j * radix level)) := by
      split_ifs at hstep with hin
      · obtain ⟨hchild, hframe⟩ := hinit _ _ _ _ hstep
        exact ⟨hframe, fun _ => hchild⟩
      · exact ⟨(store_eq hstep).1, fun hblocks => absurd hblocks hin⟩
    obtain ⟨hshape', hframe', hscan'⟩ := ih (by omega : left + (j + 1) = 16) (by
      intro i hi hblocks
      by_cases hij : i = j
      · subst hij
        exact hchild.2 hblocks
      · exact (hshape i (by omega) hblocks).congr (hchild.1.agree_sibling hij)) h
    exact ⟨hshape', (hchild.1.of_child hj).trans hframe', hscan'.trans hchild.1.scan_of_child⟩

theorem alstRadixInit_spec (h : alstRadixInit records blocks level root scan blk = some root') :
    Shape blocks root' level scan blk ∧ Frame root root' level scan ∧
      (root' scan).bmBitmap = 0 := by
  have hzero : (0 : ℕ) ≠ alistTerminator := by decide
  induction level generalizing root root' scan blk with
  | zero =>
    obtain ⟨hframe, hscan⟩ := store_eq h
    refine ⟨?_, hframe, ?_⟩
    · unfold Shape
      rw [hscan]
      exact hzero
    · rw [hscan]
  | succ level ih =>
    obtain ⟨root₁, hstore, h⟩ := bind_eq_some_iff.mp h
    obtain ⟨hframe₁, hscan₁⟩ := store_eq hstore
    obtain ⟨hshape, hframe, hscan⟩ := initScan_spec
      (fun _ _ _ _ hroot => ⟨(ih hroot).1, (ih hroot).2.1⟩) scan blk alistMetaRadix
      (by rfl : 16 + 0 = 16) (fun i hi => absurd hi (Nat.not_lt_zero i)) h
    rw [hscan₁] at hscan
    refine ⟨⟨?_, hshape⟩, hframe₁.trans hframe, ?_⟩
    · rw [hscan]
      exact hzero
    · rw [hscan]

/-! ## Records -/

/-- The records of `alist_create` hold the tree: every node that covers 512 blocks before the
last child of a node is there, and the last child fits if it has blocks. -/
def RecordsFit (blocks : ℕ) : ℕ → ℕ → Prop
  | 0, _ | 1, _ => True
  | level + 2, blk =>
    let last := blk + 15 * radix (level + 1)
    if blocks ≤ last then last < blocks + 512 else RecordsFit blocks (level + 1) last

theorem initScan_returns (hlast : child level scan 15 < records)
    (hinit : ∀ i < 16, blk + i * radix level < blocks → ∀ root, ∃ root',
      init root (child level scan i) (blk + i * radix level) = some root')
    (hleft : left + j = 16) (root : Memory) :
    ∃ root', initScan records init level scan blk blocks left root j = some root' := by
  induction left generalizing root j with
  | zero => exact ⟨root, rfl⟩
  | succ left ih =>
    unfold initScan
    split_ifs with hin
    · obtain ⟨root', hroot⟩ := hinit j (by omega) hin root
      rw [hroot]
      exact ih (by omega) root'
    · have hle : child level scan j ≤ child level scan 15 :=
        Nat.add_le_add_left (Nat.succ_le_succ (Nat.mul_le_mul_right _ (by omega))) scan
      obtain ⟨root', hroot⟩ := store_returns root _ (hle.trans_lt hlast)
      rw [hroot]
      exact ih (by omega) root'

/-- All stores are to the records of the node. -/
theorem alstRadixInit_inside (hin : scan + skip level < records) (root : Memory) :
    ∃ root', alstRadixInit records blocks level root scan blk = some root' := by
  induction level generalizing root scan blk with
  | zero => exact store_returns root _ hin
  | succ level ih =>
    obtain ⟨root₁, hroot⟩ := store_returns root { bmBitmap := 0, bmBighint := 0 }
      (by omega : scan < records)
    have hchild : ∀ i < 16, child level scan i + skip level < records :=
      fun i hi => (Kern.child_le_skip level scan hi).trans_lt hin
    unfold alstRadixInit
    rw [hroot, Option.bind_some]
    exact initScan_returns (by have := hchild 15 (by norm_num); omega)
      (fun i hi _ root => ih (hchild i hi) root) rfl root₁

theorem memindex_full (hfull : blk + radix level < blocks + 512) :
    memindex blocks level blk = skip level := by
  induction level generalizing blk with
  | zero => rfl
  | succ level ih =>
    rw [radix_succ] at hfull
    have hterm : ∀ j ∈ Finset.range alistMetaRadix, (if blocks > blk + j * radix level then
        memindex blocks level (blk + j * radix level) else 0) = skip level := by
      intro j hj
      have hle : j * radix level ≤ 15 * radix level :=
        Nat.mul_le_mul_right _ (Nat.le_of_lt_succ (mem_range.mp hj))
      split_ifs with hin
      · exact ih (by omega)
      · cases level with
        | zero => rfl
        | succ level =>
          have hradix := bmapRadix_le_radix level
          rw [radix_succ] at hin hle hfull
          omega
    rw [memindex, sum_congr rfl hterm, sum_const, card_range, smul_eq_mul, Kern.skip_succ,
      Kern.nextSkip]
    unfold alistMetaRadix
    ring

/-- With a full first part of the children the records are needed up to the last child. -/
theorem memindex_succ_succ (hfull : blk + 15 * radix (level + 1) < blocks + 512) :
    memindex blocks (level + 2) blk = 15 * nextSkip (level + 1) + 1 +
      if blocks > blk + 15 * radix (level + 1) then
        memindex blocks (level + 1) (blk + 15 * radix (level + 1)) else 0 := by
  have hradix : 512 ≤ radix (level + 1) := by
    have hle := bmapRadix_le_radix level
    rw [radix_succ]
    omega
  have hterm : ∀ j ∈ Finset.range 15, (if blocks > blk + j * radix (level + 1) then
      memindex blocks (level + 1) (blk + j * radix (level + 1)) else 0) = skip (level + 1) := by
    intro j hj
    have hle : (j + 1) * radix (level + 1) ≤ 15 * radix (level + 1) :=
      Nat.mul_le_mul_right _ (mem_range.mp hj)
    rw [Nat.succ_mul] at hle
    rw [if_pos (by omega), memindex_full (by omega)]
  rw [memindex]
  unfold alistMetaRadix
  rw [sum_range_succ, sum_congr rfl hterm, sum_const, card_range, smul_eq_mul, nextSkip]
  omega

theorem alstRadixInit_returns (hfit : RecordsFit blocks level blk)
    (hin : scan + memindex blocks level blk < records) (root : Memory) :
    ∃ root', alstRadixInit records blocks level root scan blk = some root' := by
  induction level generalizing root scan blk with
  | zero => exact store_returns root _ hin
  | succ level ih =>
    cases level with
    | zero =>
      apply alstRadixInit_inside
      simpa [memindex, skip, alistMetaRadix, Kern.blistMetaRadix] using hin
    | succ level =>
      obtain ⟨root₁, hroot⟩ := store_returns root { bmBitmap := 0, bmBighint := 0 }
        (by omega : scan < records)
      unfold RecordsFit at hfit
      have hfull : blk + 15 * radix (level + 1) < blocks + 512 := by
        dsimp only at hfit
        split_ifs at hfit <;> omega
      rw [memindex_succ_succ hfull] at hin
      have hlast : child (level + 1) scan 15 < records := by
        unfold child
        omega
      unfold alstRadixInit
      rw [hroot, Option.bind_some]
      apply initScan_returns hlast _ rfl root₁
      intro i hi hblocks root
      by_cases hi15 : i = 15
      · subst hi15
        rw [if_pos hblocks] at hin
        dsimp only at hfit
        rw [if_neg (not_le.mpr hblocks)] at hfit
        exact ih hfit (by unfold child; omega) root
      · apply alstRadixInit_inside
        have hbefore := Kern.child_lt_child (level + 1) scan (by omega : i < 15)
        omega

/-! ## Levels -/

theorem le_radix_createLevel (h : createLevel blocks fuel level = some level') :
    blocks ≤ radix level' := by
  induction fuel generalizing level with
  | zero => cases h
  | succ fuel ih =>
    unfold createLevel at h
    split_ifs at h with hlt
    · exact ih h
    · rw [some.injEq] at h
      rw [← h]
      exact (not_lt.mp hlt).trans (Nat.mod_le _ _)

theorem radix_word (level : ℕ) :
    radix level % 2 ^ 32 = radix level ∧ radix level ≤ 2 ^ 29 ∨ radix level % 2 ^ 32 = 0 := by
  rw [radix_eq_pow]
  by_cases hlevel : level ≤ 6
  · left
    have hle : 2 ^ (4 * level + 5) ≤ 2 ^ 29 := Nat.pow_le_pow_right (by norm_num) (by omega)
    exact ⟨Nat.mod_eq_of_lt (hle.trans_lt (by norm_num)), hle⟩
  · right
    exact Nat.mod_eq_zero_of_dvd (pow_dvd_pow 2 (by omega))

theorem radix_succ_le (h : radix level < 2 ^ 29) : radix (level + 1) ≤ 2 ^ 29 := by
  rw [radix_eq_pow] at h ⊢
  have hexp : 4 * level + 5 < 29 := (Nat.pow_lt_pow_iff_right (by norm_num)).mp h
  exact Nat.pow_le_pow_right (by norm_num) (by omega)

theorem createLevel_returns
    (hmax : blocks ≤ 2 ^ 29) (hlevel : radix level ≤ 2 ^ 29) (hpos : 0 < fuel)
    (hfuel : blocks < radix level + fuel) :
    ∃ level', createLevel blocks fuel level = some level' := by
  induction fuel generalizing level with
  | zero => omega
  | succ fuel ih =>
    unfold createLevel
    have hword : radix level % 2 ^ 32 = radix level :=
      Nat.mod_eq_of_lt (hlevel.trans_lt (by norm_num))
    have hone := radix_pos level
    rw [hword]
    split_ifs with hlt
    · apply ih
      · exact radix_succ_le (hlt.trans_le hmax)
      · omega
      · rw [radix_succ]
        omega
    · exact ⟨level, rfl⟩

theorem createLevel_loops (hmax : 2 ^ 29 < blocks) (fuel level : ℕ) :
    createLevel blocks fuel level = none := by
  induction fuel generalizing level with
  | zero => rfl
  | succ fuel ih =>
    unfold createLevel
    have hlt : radix level % 2 ^ 32 < blocks := by
      rcases radix_word level with ⟨hword, hle⟩ | hword
      · omega
      · omega
    rw [if_pos hlt]
    exact ih (level + 1)

theorem radix_createLevel_le (hlevel : radix level ≤ 2 ^ 29)
    (h : createLevel blocks fuel level = some level') : radix level' ≤ 2 ^ 29 := by
  have hmax : blocks ≤ 2 ^ 29 := by
    by_contra hbig
    rw [createLevel_loops (not_le.mp hbig)] at h
    cases h
  induction fuel generalizing level with
  | zero => cases h
  | succ fuel ih =>
    unfold createLevel at h
    have hword : radix level % 2 ^ 32 = radix level :=
      Nat.mod_eq_of_lt (hlevel.trans_lt (by norm_num))
    rw [hword] at h
    split_ifs at h with hlt
    · exact ih (radix_succ_le (hlt.trans_le hmax)) h
    · rw [some.injEq] at h
      rw [← h]
      exact hlevel

theorem alistCreate_loops (memory : Memory) (hmax : 2 ^ 29 < blocks) :
    alistCreate memory blocks = none := by
  unfold alistCreate
  rw [createLevel_loops hmax]

/-- The tree for this many blocks has its radix inside of a word and its records inside of the
memory that is allocated for them. -/
def Creatable (blocks : ℕ) : Prop :=
  blocks ≤ 2 ^ 29 ∧ ∀ level, createLevel blocks (blocks + 1) 0 = some level →
    RecordsFit blocks level 0

theorem alistCreate_returns (memory : Memory) (h : Creatable blocks) :
    ∃ bl, alistCreate memory blocks = some bl := by
  obtain ⟨level, hlevel⟩ := createLevel_returns h.1
    (by decide : radix 0 ≤ 2 ^ 29) (Nat.succ_pos blocks)
    (by omega : blocks < radix 0 + (blocks + 1))
  obtain ⟨root, hroot⟩ := alstRadixInit_returns (h.2 level hlevel)
    (by omega : 0 + memindex blocks level 0 < 1 + memindex blocks level 0) memory
  unfold alistCreate alistInit
  simp only [hlevel, le_refl, if_true, hroot]
  exact ⟨_, rfl⟩

theorem alistInit_of_create (h : alistCreate memory blocks = some bl) :
    ∃ nrecords, alistInit memory blocks nrecords = some bl := by
  unfold alistCreate at h
  split at h
  · cases h
  · exact ⟨_, h⟩

/-! ## Powers of two -/

theorem toNat_double_sub (hlt : count < 2 ^ 32) :
    ((BitVec.ofNat 32 count <<< 1) - 1#32).toNat = (2 ^ 32 - 1 + count * 2 % 2 ^ 32) % 2 ^ 32 := by
  rw [toNat_sub, toNat_shiftLeft, Nat.shiftLeft_eq]
  simp only [toNat_ofNat, pow_one]
  rw [Nat.mod_eq_of_lt hlt]

theorem toNat_or_pred (hpos : 1 ≤ count) (hlt : count < 2 ^ 32) :
    (BitVec.ofNat 32 count ||| (BitVec.ofNat 32 count - 1#32)).toNat = count ||| (count - 1) := by
  have hword : (BitVec.ofNat 32 count).toNat = count := by
    rw [toNat_ofNat, Nat.mod_eq_of_lt hlt]
  have hle : (1#32) ≤ BitVec.ofNat 32 count := by
    rw [le_def, hword]
    exact hpos
  have hsub : (BitVec.ofNat 32 count - 1#32).toNat = count - 1 := by
    have h := toNat_sub_of_le hle
    rw [hword] at h
    exact h
  rw [toNat_or, hword, hsub]

theorem notPow2_two_pow (hk : k ≤ 31) : notPow2 (2 ^ k) = false := by
  have hle : 2 ^ k ≤ 2 ^ 31 := Nat.pow_le_pow_right (by norm_num) hk
  have hlt : 2 ^ k < 2 ^ 32 := by omega
  have hpos : 1 ≤ 2 ^ k := Nat.one_le_two_pow
  have hpred : 2 ^ k - 1 < 2 ^ k := by omega
  have hor : 2 ^ k ||| (2 ^ k - 1) = 2 ^ k + (2 ^ k - 1) := by
    have h := Nat.two_pow_add_eq_or_of_lt hpred 1
    rw [Nat.mul_one] at h
    exact h.symm
  unfold notPow2
  simp only [ne_eq, decide_not, Bool.not_eq_false', decide_eq_true_eq]
  rw [toNat_eq, toNat_or_pred hpos hlt, toNat_double_sub hlt, hor]
  omega

theorem notPow2_between
    (hk : k ≤ 31) (hlow : 2 ^ k < count) (hhigh : count < 2 ^ (k + 1)) : notPow2 count = true := by
  have hpow : 2 ^ (k + 1) ≤ 2 ^ 32 := Nat.pow_le_pow_right (by norm_num) (by omega)
  have hor : count ||| (count - 1) < 2 ^ (k + 1) := Nat.or_lt_two_pow hhigh (by omega)
  have hle : count ≤ count ||| (count - 1) := Nat.left_le_or
  unfold notPow2
  simp only [ne_eq, decide_not, Bool.not_eq_true', decide_eq_false_iff_not]
  rw [toNat_eq, toNat_or_pred (by omega) (by omega),
    toNat_double_sub (by omega)]
  rw [pow_succ] at hor hhigh hpow
  omega

theorem roundUp_returns
    (hmax : count ≤ 2 ^ 31) (hk : k ≤ Nat.clog 2 count) (hfuel : Nat.clog 2 count < k + fuel) :
    roundUp count fuel (2 ^ k) = some (2 ^ Nat.clog 2 count) := by
  have hclog : Nat.clog 2 count ≤ 31 := (Nat.clog_le_iff_le_pow (by norm_num)).mpr hmax
  induction fuel generalizing k with
  | zero => omega
  | succ fuel ih =>
    unfold roundUp
    by_cases hlt : 2 ^ k < count
    · rw [if_pos hlt]
      have hmore : k < Nat.clog 2 count := (Nat.lt_clog_iff_pow_lt (by norm_num)).mpr hlt
      have hword : 2 ^ k * 2 % 2 ^ 32 = 2 ^ (k + 1) := by
        rw [← pow_succ]
        exact Nat.mod_eq_of_lt (Nat.pow_lt_pow_right (by norm_num) (by omega))
      rw [hword]
      exact ih (by omega) (by omega)
    · rw [if_neg hlt]
      have hle : Nat.clog 2 count ≤ k := (Nat.clog_le_iff_le_pow (by norm_num)).mpr (not_lt.mp hlt)
      rw [le_antisymm hk hle]

/-! ## Operations -/

structure Alist.Represents (hinted : Prop) (bl : Alist) (free : Finset ℕ) :
    Prop where
  word : radix bl.level ≤ 2 ^ 29
  fits : bl.blBlocks ≤ radix bl.level
  shape : Shape bl.blBlocks bl.blRoot bl.level 0 0
  sound : Sound hinted bl.blRoot bl.level 0 0 free
  inside : free ⊆ Finset.range bl.blBlocks
  blFree : bl.blFree = free.card

theorem alistInit_represents (hinit : alistInit memory blocks nrecords = some bl) :
    bl.blBlocks = blocks ∧ bl.Represents hinted ∅ := by
  unfold alistInit at hinit
  split at hinit
  · cases hinit
  · next level hlevel =>
      split_ifs at hinit
      obtain ⟨root, hroot, rfl⟩ := map_eq_some_iff.mp hinit
      obtain ⟨hshape, -, hzero⟩ := alstRadixInit_spec hroot
      exact ⟨rfl, radix_createLevel_le (by decide) hlevel,
        le_radix_createLevel hlevel, hshape,
        sound_empty 0 hzero, empty_subset _, rfl⟩

def AllocCorrect (free : Finset ℕ) (start count : ℕ) : Option ℕ → Prop
  | none => True
  | some blk =>
    start ≤ blk ∧ 2 ^ Nat.clog 2 count ∣ blk ∧ Ico blk (blk + count) ⊆ free

theorem Alist.Represents.free
    {free : Finset ℕ} (h : bl.Represents hinted free) {blkno : ℕ} (hpos : 1 ≤ count)
    (hin : blkno + count ≤ bl.blBlocks) (hdisj : Disjoint (Ico blkno (blkno + count)) free) :
    ∃ bl', alistFree bl blkno count = some bl' ∧ bl'.blBlocks = bl.blBlocks ∧ bl'.Represents hinted
        (free ∪ Ico blkno (blkno + count)) := by
  obtain ⟨root', heq, hres⟩ := alstFree_result bl.level h.shape h.sound
    (dvd_zero _) hpos (Nat.zero_le blkno)
    (by rw [Nat.zero_add]; exact hin.trans h.fits) hin hdisj
  unfold alistFree
  rw [if_pos hin, heq]
  refine ⟨_, rfl, rfl, h.word, h.fits, hres.shape, hres.sound, ?_, ?_⟩
  · apply union_subset h.inside
    intro x hx
    rw [mem_Ico] at hx
    exact mem_range.mpr (hx.2.trans_le hin)
  · simp only
    rw [card_union_of_disjoint hdisj.symm, Nat.card_Ico, Nat.add_sub_cancel_left, h.blFree]
    push_cast
    rfl

theorem Alist.Represents.allocPow2 {free : Finset ℕ} (h : bl.Represents hinted free) {start : ℕ}
    (hsafe : hinted → Safe free start (2 ^ k)) :
    (alistAllocPow2 bl start (2 ^ k)).1.blBlocks = bl.blBlocks ∧ AllocCorrect free start (2 ^ k)
        (alistAllocPow2 bl start (2 ^ k)).2 ∧ (alistAllocPow2 bl start (2 ^ k)).1.Represents hinted
        (free \ taken (2 ^ k) (alistAllocPow2 bl start (2 ^ k)).2) := by
  unfold alistAllocPow2
  split_ifs with hlt
  · have hres := alstAlloc_result bl.level hlt id h.shape h.sound
      (fun hh => h.sound.weaken fun _ => hh) (dvd_zero _) h.inside hsafe
    split
    · next root blk heq =>
        rw [heq] at hres
        obtain ⟨hstart, hdvd, hrun, hsound⟩ := hres.taken blk rfl
        refine ⟨rfl, ⟨hstart, ?_, hrun⟩, h.word, h.fits, hres.shape,
          hsound, sdiff_subset.trans h.inside, ?_⟩
        · rw [Nat.clog_pow 2 k (by norm_num)]
          exact hdvd
        · have hcard := card_sdiff_add_card_eq_card hrun
          rw [Nat.card_Ico, Nat.add_sub_cancel_left] at hcard
          simp only [taken, h.blFree]
          omega
    · next root heq =>
        rw [heq] at hres
        refine ⟨rfl, trivial, ?_⟩
        simp only [taken, sdiff_empty]
        exact ⟨h.word, h.fits, hres.shape, (hres.failed rfl).1, h.inside, h.blFree⟩
  · refine ⟨rfl, trivial, ?_⟩
    simp only [taken, sdiff_empty]
    exact h

theorem sdiff_union_tail (hle : count ≤ size) (hrun : Ico blk (blk + size) ⊆ free) :
    (free \ Ico blk (blk + size)) ∪ Ico (blk + count) (blk + count + (size - count)) =
      free \ Ico blk (blk + count) := by
  ext x
  have hmem : x ∈ Ico blk (blk + size) → x ∈ free := fun hx => hrun hx
  simp only [mem_union, mem_sdiff, mem_Ico] at hmem ⊢
  constructor
  · rintro (⟨hfree, hout⟩ | htail)
    · exact ⟨hfree, by omega⟩
    · exact ⟨hmem (by omega), by omega⟩
  · rintro ⟨hfree, hout⟩
    by_cases htail : blk ≤ x ∧ x < blk + size
    · exact Or.inr (by omega)
    · exact Or.inl ⟨hfree, htail⟩

theorem alistAlloc_of_pow (bl : Alist) (start : ℕ) (hk : k ≤ 31) :
    alistAlloc bl start (2 ^ k) = some (alistAllocPow2 bl start (2 ^ k)) := by
  have hpos : 2 ^ k ≠ 0 := by positivity
  unfold alistAlloc
  rw [if_neg hpos, notPow2_two_pow hk]
  rfl

theorem roundUp_of_between (hmax : count ≤ 2 ^ 31) :
    roundUp count 33 (if count < 256 then 1 else 256) = some (2 ^ Nat.clog 2 count) := by
  have hclog : Nat.clog 2 count ≤ 31 := (Nat.clog_le_iff_le_pow (by norm_num)).mpr hmax
  split_ifs with hsmall
  · exact roundUp_returns hmax (Nat.zero_le _) (by omega)
  · have hle : 8 ≤ Nat.clog 2 count := by
      have hmono := Nat.clog_mono_right 2 (not_lt.mp hsmall)
      have h256 : Nat.clog 2 256 = 8 := Nat.clog_pow 2 8 (by norm_num)
      omega
    have h256 : (256 : ℕ) = 2 ^ 8 := by norm_num
    rw [h256]
    exact roundUp_returns hmax hle (by omega)

theorem Alist.Represents.alloc
    {free : Finset ℕ} (h : bl.Represents hinted free) {start : ℕ} (hpos : 1 ≤ count)
    (hmax : count ≤ 2 ^ 31) (hsafe : hinted → Safe free start (2 ^ Nat.clog 2 count)) :
    ∃ bl' result, alistAlloc bl start count = some (bl', result) ∧
      bl'.blBlocks = bl.blBlocks ∧ AllocCorrect free start count result ∧
      bl'.Represents hinted (free \ taken count result) := by
  have hclog : Nat.clog 2 count ≤ 31 := (Nat.clog_le_iff_le_pow (by norm_num)).mpr hmax
  have hle : count ≤ 2 ^ Nat.clog 2 count := Nat.le_pow_clog (by norm_num) count
  have hpow := h.allocPow2 hsafe
  by_cases heq : count = 2 ^ Nat.clog 2 count
  · rw [← heq] at hpow
    have halloc := alistAlloc_of_pow bl start hclog
    rw [← heq] at halloc
    exact ⟨_, _, halloc, hpow⟩
  · have hlt : count < 2 ^ Nat.clog 2 count := lt_of_le_of_ne hle heq
    have hone : 1 < count := by
      by_contra hsmall
      have hcount : count = 1 := by omega
      rw [hcount] at heq
      exact heq (by simp)
    have hprev : 2 ^ (Nat.clog 2 count - 1) < count := Nat.pow_pred_clog_lt_self (by norm_num) hone
    have hclog' : Nat.clog 2 count - 1 + 1 = Nat.clog 2 count :=
      Nat.sub_add_cancel (Nat.clog_pos (by norm_num) hone)
    have hnot : notPow2 count = true := by
      apply notPow2_between (by omega) hprev
      rw [hclog']
      exact hlt
    unfold alistAlloc
    rw [if_neg (by omega), if_pos hnot, roundUp_of_between hmax]
    simp only
    revert hpow
    rcases alistAllocPow2 bl start (2 ^ Nat.clog 2 count) with ⟨bl', result⟩
    rintro ⟨hblocks, hcorrect, hrep⟩
    cases result with
    | none => exact ⟨bl', none, rfl, hblocks, trivial, hrep⟩
    | some blk =>
      obtain ⟨hstart, hdvd, hrun⟩ := hcorrect
      rw [Nat.clog_pow 2 _ (by norm_num)] at hdvd
      have hlast : blk + 2 ^ Nat.clog 2 count - 1 < bl.blBlocks := by
        apply mem_range.mp
        apply h.inside
        apply hrun
        rw [mem_Ico]
        simp only at hblocks
        omega
      simp only at hblocks
      obtain ⟨bl'', hfree, hblocks', hrep'⟩ := hrep.free
        (by omega : 1 ≤ 2 ^ Nat.clog 2 count - count)
        (by rw [hblocks]; omega : blk + count +
          (2 ^ Nat.clog 2 count - count) ≤ bl'.blBlocks) (by
          rw [disjoint_left]
          intro x hx hx'
          rw [taken, mem_sdiff, mem_Ico] at hx'
          rw [mem_Ico] at hx
          omega)
      simp only
      rw [hfree]
      rw [taken, sdiff_union_tail hle hrun] at hrep'
      exact ⟨bl'', some blk, rfl, hblocks'.trans hblocks, ⟨hstart, hdvd,
          (Ico_subset_Ico_right (by omega)).trans hrun⟩, hrep'⟩

/-! ## Runs -/

/-- The alists reached from `alist_init`, which `alist_create` does as well, with the
blocks that are free by the operations performed and their results.  Each allocation
is `allowed` for the blocks that are free before it. -/
inductive Reached (allowed : Finset ℕ → ℕ → ℕ → Prop) (blocks : ℕ) :
    Alist → Finset ℕ → Prop
  | create {memory : Memory} {nrecords : ℕ} {bl : Alist}
      (hinit : alistInit memory blocks nrecords = some bl) :
      Reached allowed blocks bl ∅
  | alloc {bl bl' : Alist} {free : Finset ℕ} {start count : ℕ}
      {result : Option ℕ} (h : Reached allowed blocks bl free)
      (hpos : 1 ≤ count) (hmax : count ≤ 2 ^ 31)
      (hallowed : allowed free start count)
      (hstep : alistAlloc bl start count = some (bl', result)) :
      Reached allowed blocks bl' (free \ taken count result)
  | free {bl bl' : Alist} {free : Finset ℕ} {blkno count : ℕ}
      (h : Reached allowed blocks bl free) (hpos : 1 ≤ count)
      (hin : blkno + count ≤ blocks)
      (hdisj : Disjoint (Ico blkno (blkno + count)) free)
      (hstep : alistFree bl blkno count = some bl') :
      Reached allowed blocks bl' (free ∪ Ico blkno (blkno + count))

theorem Reached.represents {allowed : Finset ℕ → ℕ → ℕ → Prop} {free : Finset ℕ}
    (hsafe : hinted → ∀ free start count, allowed free start count →
      Safe free start (2 ^ Nat.clog 2 count)) (h : Reached allowed blocks bl free) :
    bl.blBlocks = blocks ∧ bl.Represents hinted free := by
  induction h with
  | create hinit => exact alistInit_represents hinit
  | @alloc bl bl' free start count result _ hpos hmax hallowed hstep ih =>
    obtain ⟨bl1, result1, hstep1, hblocks, -, hrep⟩ :=
      ih.2.alloc hpos hmax (fun hh => hsafe hh free start count hallowed)
    rw [hstep1, some.injEq, Prod.mk.injEq] at hstep
    obtain ⟨rfl, rfl⟩ := hstep
    exact ⟨hblocks.trans ih.1, hrep⟩
  | @free bl bl' free blkno count _ hpos hin hdisj hstep ih =>
    obtain ⟨bl1, hstep1, hblocks, hrep⟩ := ih.2.free hpos (by rw [ih.1]; exact hin) hdisj
    rw [hstep1, some.injEq] at hstep
    subst hstep
    exact ⟨hblocks.trans ih.1, hrep⟩

/-- The nodes whose records count: the root, and a child of such a node that is
neither all-allocated nor all-free. -/
inductive Live (bl : Alist) : ℕ → ℕ → ℕ → Prop
  | root : Live bl bl.level 0 0
  | child {level scan blk j : ℕ} (h : Live bl (level + 1) scan blk)
      (hj : j < 16)
      (hmixed : (bl.blRoot scan).bmBitmap &&& fieldMask j = partMask j) :
      Live bl level (child level scan j) (blk + j * radix level)

theorem and_fieldMask_eq_part (hj : j < 16) :
    bitmap &&& fieldMask j = partMask j ↔ Mixed bitmap j := by
  constructor
  · intro h
    have hbit : ∀ i, (bitmap &&& fieldMask j).getLsbD i = (partMask j).getLsbD i := by
      intro i
      rw [h]
    constructor
    · have hlow := hbit (2 * j)
      rw [getLsbD_and, getLsbD_fieldMask hj, getLsbD_partMask hj] at hlow
      simpa using hlow
    · have hhigh := hbit (2 * j + 1)
      rw [getLsbD_and, getLsbD_fieldMask hj, getLsbD_partMask hj] at hhigh
      simpa using hhigh
  · rintro ⟨hlow, hhigh⟩
    apply eq_of_getLsbD_eq
    intro i _
    rw [getLsbD_and, getLsbD_fieldMask hj, getLsbD_partMask hj]
    by_cases h : i = 2 * j ∨ i = 2 * j + 1
    · rcases h with rfl | rfl
      · simp [hlow]
      · simp [hhigh]
    · have hne : i ≠ 2 * j := fun hi => h (Or.inl hi)
      rw [decide_eq_false h, decide_eq_false hne, Bool.and_false]

theorem Alist.Represents.live {free : Finset ℕ} (h : bl.Represents hinted free) {scan blk : ℕ}
    (hlive : Live bl level scan blk) :
    Sound hinted bl.blRoot level scan blk (free ∩ Ico blk (blk + radix level)) := by
  induction hlive with
  | root =>
    rw [inter_eq_left.mpr h.sound.subset]
    exact h.sound
  | @child level scan blk j _ hj hmixed ih =>
    have hchild := ih.2.2.1 j hj ((and_fieldMask_eq_part hj).mp hmixed)
    rw [inter_assoc, inter_eq_right.mpr (childRange_subset hj)] at hchild
    exact hchild

/-- Each field of a meta node tells whether nothing, everything or a part of its
child is free. -/
def FieldsExact (bl : Alist) (free : Finset ℕ) : Prop :=
  ∀ level scan blk, Live bl (level + 1) scan blk → ∀ j < 16,
    ((bl.blRoot scan).bmBitmap &&& fieldMask j = 0 ↔ Disjoint (childRange level blk j) free) ∧
    ((bl.blRoot scan).bmBitmap &&& fieldMask j = fieldMask j ↔ childRange level blk j ⊆ free) ∧
    ((bl.blRoot scan).bmBitmap &&& fieldMask j = partMask j ↔
      ¬Disjoint (childRange level blk j) free ∧ ¬childRange level blk j ⊆ free)

theorem Alist.Represents.fieldsExact
    {free : Finset ℕ} (h : bl.Represents hinted free) : FieldsExact bl free := by
  intro level scan blk hlive j hj
  have hsub : childRange level blk j ⊆ Ico blk (blk + radix (level + 1)) := childRange_subset hj
  have hfield : Field (bl.blRoot scan).bmBitmap j (childRange level blk j)
      free := by
    apply ((h.live hlive).2.1 j hj).congr rfl rfl
    intro b hb
    rw [mem_inter]
    exact ⟨fun hfree => ⟨hfree, hsub hb⟩, fun hboth => hboth.1⟩
  have hempty : (bl.blRoot scan).bmBitmap &&& fieldMask j = 0 ↔
      Disjoint (childRange level blk j) free := by
    rw [hfield.empty_iff hj, disjoint_iff_inter_eq_empty, inter_comm]
  refine ⟨hempty, hfield.full_iff hj, ?_⟩
  rw [and_fieldMask_eq_part hj, Mixed, hfield.part,
    nonempty_iff_ne_empty, disjoint_iff_inter_eq_empty,
    inter_comm, ← hfield.full, Bool.not_eq_true]

/-- Every list whose tree fits into its memory can be created, and every alist reached
from it by allocating at most `2 ^ 31` blocks at a time and freeing non-empty
ranges is exactly the set of blocks that are free. -/
theorem Reached.refines_aligned_free_set (blocks : ℕ) :
    (Creatable blocks → ∀ memory, ∃ bl, alistCreate memory blocks = some bl ∧
      Reached (fun _ _ _ => True) blocks bl ∅) ∧
    ∀ bl free, Reached (fun _ _ _ => True) blocks bl free →
      free ⊆ Finset.range blocks ∧ bl.blFree = free.card ∧
      FieldsExact bl free ∧
      (∀ start count, 1 ≤ count → count ≤ 2 ^ 31 →
        ∃ bl' result, alistAlloc bl start count = some (bl', result) ∧
          AllocCorrect free start count result ∧
          Reached (fun _ _ _ => True) blocks bl'
            (free \ taken count result)) ∧
      ∀ blkno count, 1 ≤ count → blkno + count ≤ blocks →
        Disjoint (Ico blkno (blkno + count)) free →
        ∃ bl', alistFree bl blkno count = some bl' ∧ Reached (fun _ _ _ => True) blocks bl'
            (free ∪ Ico blkno (blkno + count)) := by
  constructor
  · intro hblocks memory
    obtain ⟨bl, hcreate⟩ := alistCreate_returns memory hblocks
    obtain ⟨nrecords, hinit⟩ := alistInit_of_create hcreate
    exact ⟨bl, hcreate, .create hinit⟩
  intro bl free h
  obtain ⟨hsize, hrep⟩ := h.represents (False.elim : False → _)
  refine ⟨?_, hrep.blFree, hrep.fieldsExact, ?_, ?_⟩
  · rw [← hsize]
    exact hrep.inside
  · intro start count hpos hmax
    obtain ⟨bl', result, hstep, -, hcorrect, -⟩ :=
      hrep.alloc hpos hmax (False.elim : False → Safe free start _)
    exact ⟨bl', result, hstep, hcorrect, h.alloc hpos hmax trivial hstep⟩
  · intro blkno count hpos hin hdisj
    obtain ⟨bl', hstep, -, -⟩ := hrep.free hpos (by rw [hsize]; exact hin) hdisj
    exact ⟨bl', hstep, h.free hpos hin hdisj hstep⟩

def blank : Memory := fun _ => { bmBitmap := 0, bmBighint := 0 }

theorem creatable_64 : Creatable 64 := by
  refine ⟨by norm_num, fun level hlevel => ?_⟩
  have hone : some 1 = some level := hlevel
  rw [some.injEq] at hone
  subst hone
  trivial

theorem Reached.freed_blocks_refined :
    ∃ bl bl' result, Reached (fun _ _ _ => True) 64 bl (∅ ∪ Ico 0 (0 + 64)) ∧
        FieldsExact bl (∅ ∪ Ico 0 (0 + 64)) ∧
        alistAlloc bl 3 5 = some (bl', result) ∧
        AllocCorrect (∅ ∪ Ico 0 (0 + 64)) 3 5 result := by
  obtain ⟨hcreate, hreached⟩ := Reached.refines_aligned_free_set 64
  obtain ⟨bl, -, hbl⟩ := hcreate creatable_64 blank
  obtain ⟨-, -, -, -, hfree⟩ := hreached bl ∅ hbl
  obtain ⟨bl1, -, hrun⟩ := hfree 0 64 (by norm_num) (by norm_num)
    (disjoint_empty_right _)
  obtain ⟨-, -, hfields, halloc, -⟩ := hreached bl1 _ hrun
  obtain ⟨bl2, result, hstep, hcorrect, -⟩ := halloc 3 5 (by norm_num) (by norm_num)
  exact ⟨bl1, bl2, result, hrun, hfields, hstep, hcorrect⟩

/-- An allocation never lowers the hint of a leaf it has seen only the end of. -/
def SafeStart (free : Finset ℕ) (start count : ℕ) : Prop :=
  Safe free start (2 ^ Nat.clog 2 count)

/-- No hint is too low after any run of safe allocations, so that an allocation,
wherever it starts, fails only if there is no run for it. -/
theorem Reached.hints_cover
    {blocks : ℕ} {bl : Alist} {free : Finset ℕ} (h : Reached SafeStart blocks bl free) :
    (∀ start k, 2 ^ k < bl.blRadix → ∀ bl', alistAlloc bl start (2 ^ k) = some (bl', none) →
      NoRun free start (2 ^ k)) ∧
    ∀ level scan blk, Live bl level scan blk → HintCovers (bl.blRoot scan).bmBighint
        (free ∩ Ico blk (blk + radix level)) := by
  have hrep : bl.Represents True free := (h.represents (fun _ _ _ _ hsafe => hsafe)).2
  constructor
  · intro start k hlt bl' hstep
    have hk : k ≤ 31 := by
      have hpow : 2 ^ k < 2 ^ 29 := hlt.trans_le hrep.word
      have hexp := (Nat.pow_lt_pow_iff_right (by norm_num)).mp hpow
      omega
    rw [alistAlloc_of_pow bl start hk, some.injEq] at hstep
    unfold alistAllocPow2 at hstep
    rw [if_pos hlt] at hstep
    apply alstAlloc_complete bl.level hlt hrep.shape hrep.sound (dvd_zero _) hrep.inside
    split at hstep
    · cases hstep
    · next root heq => rw [heq]
  · intro level scan blk hlive
    exact (hrep.live hlive).hint trivial

theorem Reached.second_leaf_covered :
    ∃ bl, Reached SafeStart 64 bl (∅ ∪ Ico 32 (32 + 8)) ∧ HintCovers (bl.blRoot 0).bmBighint
        ((∅ ∪ Ico 32 (32 + 8)) ∩ Ico 0 (0 + radix bl.level)) ∧
      ∀ bl', alistAlloc bl 40 (2 ^ 0) = some (bl', none) →
        NoRun (∅ ∪ Ico 32 (32 + 8)) 40 (2 ^ 0) := by
  obtain ⟨bl, hcreate⟩ := alistCreate_returns blank creatable_64
  obtain ⟨nrecords, hbl⟩ := alistInit_of_create hcreate
  have hcreated : bl.blBlocks = 64 ∧ bl.Represents True ∅ := alistInit_represents hbl
  obtain ⟨hsize, hrep⟩ := hcreated
  obtain ⟨bl1, hstep, -, -⟩ := hrep.free (by norm_num : 1 ≤ 8)
    (by rw [hsize]; norm_num : 32 + 8 ≤ bl.blBlocks)
    (disjoint_empty_right _)
  have hreached : Reached SafeStart 64 bl1 (∅ ∪ Ico 32 (32 + 8)) :=
    .free (.create hbl) (by norm_num) (by norm_num)
      (disjoint_empty_right _) hstep
  obtain ⟨hcomplete, hhints⟩ := Reached.hints_cover hreached
  refine ⟨bl1, hreached, hhints bl1.level 0 0 Live.root, ?_⟩
  apply hcomplete 40 0
  have hradix : 32 ≤ bl1.blRadix := bmapRadix_le_radix bl1.level
  omega

/-! ## Runs outside of these bounds -/

/-- Freeing no blocks inside of an allocated leaf marks the leaf.  An allocation
that cannot be rounded up to a power of two does not end, nor does the creation of
a list whose radix does not fit into a word.  The terminators of a list of 600 blocks
are behind its 49 records. -/
theorem empty_free_marks_leaf :
    ∃ bl bl', alistCreate blank 64 = some bl ∧ alistFree bl 5 0 = some bl' ∧
      ¬FieldsExact bl' (∅ ∪ Ico 5 (5 + 0)) ∧ alistAlloc bl 0 (2 ^ 31 + 1) = none ∧
      alistCreate blank (2 ^ 29 + 1) = none ∧ alistCreate blank 600 = none := by
  refine ⟨_, _, rfl, rfl, ?_, ?_, alistCreate_loops blank (by norm_num), rfl⟩
  · intro hexact
    have hfield := (hexact 0 0 0 Live.root 0 (by norm_num)).2.2.mp (by decide)
    exact hfield.1 (disjoint_empty_right _)
  · decide

/-- A search from the middle of the second leaf lowers its hint. -/
theorem middle_search_hides_block :
    ∃ bl bl1 bl2 bl3, alistCreate blank 64 = some bl ∧ alistFree bl 32 8 = some bl1 ∧
      alistAlloc bl1 40 1 = some (bl2, none) ∧ alistAlloc bl2 0 1 = some (bl3, none) ∧
      ¬NoRun (∅ ∪ Ico 32 (32 + 8)) 0 1 := by
  refine ⟨_, _, _, _, rfl, rfl, rfl, rfl, ?_⟩
  intro hno
  exact hno 32 (one_dvd _) (Nat.zero_le _) (by decide)

end DragonFly.Alst
