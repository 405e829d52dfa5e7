import DragonFly.BlistRefinement

/-!
# Resizing a blist

`blist_resize` frees the free blocks of the old tree piece by piece in a new tree, in which
all blocks are allocated at first.
-/

namespace DragonFly.Kern

open BitRange Finset

/-- The loop of `blst_copy` over the bits of a leaf. -/
def copyBits (v : BitVec 32) (blk : ℕ) : ℕ → ℕ → Blist → Option Blist
  | 0, _, dest => some dest
  | left + 1, i, dest =>
    (if v &&& (1#32 <<< i) ≠ 0 then blistFree dest (blk + i) 1 else some dest).bind
      (copyBits v blk left (i + 1))

/-- The loop of `blst_copy` over the children of level `level`, which `copy` copies. -/
def copyScan (copy : ℕ → ℕ → ℕ → Blist → Option Blist) (level : ℕ) (root : Memory) :
    ℕ → ℕ → ℕ → ℕ → Blist → Option Blist
  | 0, _, _, _, dest => some dest
  | left + 1, i, blk, count, dest =>
    if count = 0 ∨ (root i).bmBighint = -1 then some dest
    else
      let v := if count ≥ radix level then radix level else count
      (copy i blk v dest).bind
        (copyScan copy level root left (i + nextSkip level) (blk + radix level) (count - v))

def blstCopy (root : Memory) : ℕ → ℕ → ℕ → ℕ → Blist → Option Blist
  | 0, scan, blk, count, dest =>
    let v := (root scan).bmuBitmap
    if v = BitVec.allOnes 32 then blistFree dest blk count
    else if v ≠ 0 then copyBits v blk (min blistBmapRadix count) 0 dest
    else some dest
  | level + 1, scan, blk, count, dest =>
    if (root scan).bmuAvail = 0 then some dest
    else if (root scan).bmuAvail = radix (level + 1) then
      blistFree dest blk (if count < radix (level + 1) then count else radix (level + 1))
    else copyScan (blstCopy root level) level root blistMetaRadix (scan + 1) blk count dest

/-- The new list, whose records are those of `kmalloc`. -/
def blistResize (bl : Blist) (memory : Memory) (count : ℕ) (freenew : Bool) : Option Blist :=
  let newbl := blistCreate memory count
  let count := if count > bl.blBlocks then bl.blBlocks else count
  (blstCopy bl.blRoot bl.level 0 0 count newbl).bind fun newbl =>
    if freenew ∧ count < newbl.blBlocks then blistFree newbl count (newbl.blBlocks - count)
    else some newbl

/-! ## Copying a piece -/

/-- Where `count` blocks from `start` on are allocated, `copy` frees those in `source`. -/
def Copies (source : Finset ℕ) (start count : ℕ) (copy : Blist → Option Blist) : Prop :=
  ∀ dest free, dest.Tracks free → start + count ≤ dest.blBlocks →
    Disjoint free (Ico start (start + count)) →
      ∃ dest', copy dest = some dest' ∧ dest'.blBlocks = dest.blBlocks ∧
        dest'.Tracks (free ∪ source ∩ Ico start (start + count))

variable {source : Finset ℕ} {start count v rest : ℕ} {copy copy' : Blist → Option Blist}

theorem copies_nothing (h : source ∩ Ico start (start + count) = ∅) :
    Copies source start count some := by
  intro dest free htracks _ _
  rw [h, union_empty]
  exact ⟨dest, rfl, rfl, htracks⟩

theorem copies_whole (hpos : 1 ≤ count) (h : Ico start (start + count) ⊆ source) :
    Copies source start count fun dest => blistFree dest start count := by
  intro dest free htracks hin hdisjoint
  rw [inter_eq_right.mpr h]
  exact htracks.release (fun _ _ => hpos) hin hdisjoint

theorem Copies.append (h : Copies source start v copy) (h' : Copies source (start + v) rest copy') :
    Copies source start (v + rest) fun dest => (copy dest).bind copy' := by
  intro dest free htracks hin hdisjoint
  have hcut : Ico start (start + v) ∪ Ico (start + v) (start + v + rest) =
      Ico start (start + (v + rest)) := by
    rw [← Nat.add_assoc]
    exact Ico_union_Ico_eq_Ico (Nat.le_add_right _ _) (Nat.le_add_right _ _)
  rw [← hcut, disjoint_union_right] at hdisjoint
  obtain ⟨dest1, hcopy, hblocks, htracks1⟩ := h dest free htracks (by omega) hdisjoint.1
  have hapart : Disjoint (free ∪ source ∩ Ico start (start + v))
      (Ico (start + v) (start + v + rest)) := by
    rw [disjoint_union_left]
    exact ⟨hdisjoint.2, (Ico_disjoint_Ico_consecutive _ _ _).mono_left inter_subset_right⟩
  obtain ⟨dest2, hcopy', hblocks', htracks2⟩ := h' dest1 _ htracks1 (by omega) hapart
  refine ⟨dest2, ?_, hblocks'.trans hblocks, ?_⟩
  · simp only [hcopy, Option.bind_some, hcopy']
  · rwa [union_assoc, ← inter_union_distrib_left, hcut] at htracks2

theorem Copies.of_inter {range : Finset ℕ} (h : Copies (source ∩ range) start count copy)
    (hsub : Ico start (start + count) ⊆ range) : Copies source start count copy := by
  unfold Copies at h
  rwa [inter_assoc, inter_eq_right.mpr hsub] at h

/-! ## The tree -/

variable {root : Memory} {level scan blk n : ℕ}

theorem copyBits_spec {word : BitVec 32}
    (hsource : ∀ b, b ∈ source ↔ blk ≤ b ∧ b - blk ∈ bits word) {left i : ℕ}
    (hleft : i + left ≤ 32) : Copies source (blk + i) left (copyBits word blk left i) := by
  induction left generalizing i with
  | zero => exact copies_nothing (by simp)
  | succ left ih =>
    have hbit : word &&& (1#32 <<< i) = 0 ↔ blk + i ∉ source := by
      rw [hsource, ← bits_eq_empty, bits_and, bits_single (by omega), Nat.Ico_succ_singleton,
        ← disjoint_iff_inter_eq_empty, disjoint_singleton_right]
      simp
    have hone : Copies source (blk + i) 1 fun dest =>
        if word &&& (1#32 <<< i) ≠ 0 then blistFree dest (blk + i) 1 else some dest := by
      by_cases hmem : blk + i ∈ source
      · simp only [if_pos (hbit.not.mpr (not_not.mpr hmem))]
        apply copies_whole le_rfl
        rwa [Nat.Ico_succ_singleton, singleton_subset_iff]
      · simp only [hbit.mpr hmem, ne_eq, not_true_eq_false, if_false]
        apply copies_nothing
        rwa [Nat.Ico_succ_singleton, ← disjoint_iff_inter_eq_empty, disjoint_singleton_right]
    have happend := hone.append (ih (i := i + 1) (by omega))
    rw [Nat.add_comm 1] at happend
    exact happend

def CopiesNodes (root : Memory) (level : ℕ) (copy : ℕ → ℕ → ℕ → Blist → Option Blist) : Prop :=
  ∀ scan blk n source count, n ≤ radix level → Node root level scan blk n source → count ≤ n →
    (source.Nonempty → 1 ≤ count) → Copies source blk count (copy scan blk count)

theorem copyScan_zero (copy : ℕ → ℕ → ℕ → Blist → Option Blist) (left i blk : ℕ) :
    copyScan copy level root left i blk 0 = some := by
  cases left with
  | zero => rfl
  | succ left => simp [copyScan]

theorem copyScan_spec {copy : ℕ → ℕ → ℕ → Blist → Option Blist}
    (hcopy : CopiesNodes root level copy) (hn : n ≤ radix (level + 1))
    (hsub : Sub root level scan blk n source) (left : ℕ) {j : ℕ}
    (hleft : left + j = 16) (hcount : j * radix level + count ≤ n) :
    Copies source (blk + j * radix level) count
      (copyScan copy level root left (child level scan j) (blk + j * radix level) count) := by
  rw [radix_succ] at hn
  induction left generalizing j count with
  | zero =>
    rw [Nat.zero_add] at hleft
    rw [hleft] at hcount
    exact copies_nothing (by simp [(by omega : count = 0)])
  | succ left ih =>
    by_cases hzero : count = 0
    · rw [hzero, copyScan_zero]
      exact copies_nothing (by simp)
    have hj : j < children level n := lt_children_iff.mpr (by omega)
    have hnode := hsub.node j hj
    have hhint := hnode.shape.bighint
    have hstop : ¬ (count = 0 ∨ (root (child level scan j)).bmBighint = -1) := by omega
    obtain ⟨v, hv⟩ : ∃ v, v = if count ≥ radix level then radix level else count := ⟨_, rfl⟩
    have hle : v ≤ radix level ∧ v ≤ count ∧ 1 ≤ v := by
      split_ifs at hv <;> omega
    have hpiece : Copies source (blk + j * radix level) v
        (copy (child level scan j) (blk + j * radix level) v) := by
      apply Copies.of_inter _ (piece_subset_childRange le_rfl (by omega))
      apply hcopy _ _ _ _ _ (childBlocks_le level n j) hnode _ fun _ => hle.2.2
      unfold childBlocks
      omega
    have hrest : Copies source (blk + j * radix level + v) (count - v)
        (copyScan copy level root left (child level scan j + nextSkip level)
          (blk + j * radix level + radix level) (count - v)) := by
      split_ifs at hv with hfull
      · have hend : (j + 1) * radix level + (count - v) ≤ n := by
          rw [Nat.succ_mul]
          omega
        have hnext := ih (by omega : left + (j + 1) = 16) hend
        rw [child_succ, Nat.succ_mul, ← Nat.add_assoc] at hnext
        rwa [hv] at hnext ⊢
      · rw [hv, Nat.sub_self, copyScan_zero]
        exact copies_nothing (by simp)
    have happend := hpiece.append hrest
    rw [Nat.add_sub_cancel' hle.2.1] at happend
    change Copies _ _ _ fun dest => copyScan copy level root (left + 1) _ _ count dest
    unfold copyScan
    simpa only [if_neg hstop, ← hv] using happend

theorem blstCopy_spec (level : ℕ) : CopiesNodes root level (blstCopy root level) := by
  induction level with
  | zero =>
    intro scan blk n source count hn hnode hcount hpos
    have hbits := hnode.rep.2
    have hle : count ≤ 32 := hcount.trans hn
    change Copies source blk count fun dest => blstCopy root 0 scan blk count dest
    unfold blstCopy
    by_cases hfull : (root scan).bmuBitmap = BitVec.allOnes 32
    · simp only [if_pos hfull]
      have hwhole : Ico blk (blk + 32) ⊆ source := by
        intro b hb
        rw [mem_Ico] at hb
        rw [hbits, hfull, bits_allOnes, mem_range]
        omega
      have hone := hpos ⟨blk, hwhole (by simp)⟩
      exact copies_whole hone ((Ico_subset_Ico_right (by omega)).trans hwhole)
    · by_cases hzero : (root scan).bmuBitmap = 0
      · simp only [hzero, ne_eq, not_true_eq_false, if_false]
        rw [free_eq_empty_of_bitmap hnode hzero]
        exact copies_nothing (empty_inter _)
      · have hmin : min blistBmapRadix count = count := Nat.min_eq_right hle
        simp only [if_neg hfull, if_pos hzero, ne_eq, hmin]
        exact copyBits_spec hbits (by omega : 0 + count ≤ 32)
  | succ level ih =>
    intro scan blk n source count hn hnode hcount hpos
    change Copies source blk count fun dest => blstCopy root (level + 1) scan blk count dest
    unfold blstCopy
    rw [hnode.avail]
    by_cases hempty : source = ∅
    · simp only [hempty, card_empty, Nat.cast_zero, if_true]
      exact copies_nothing (empty_inter _)
    have hcard : (source.card : ℤ) ≠ 0 := by
      simpa using hempty
    simp only [if_neg hcard]
    by_cases hfull : source.card = radix (level + 1)
    · obtain ⟨rfl, hsource⟩ := eq_of_card_radix hn hnode.subset hfull
      have hsize : (if count < radix (level + 1) then count else radix (level + 1)) = count := by
        split_ifs <;> omega
      simp only [hfull, if_true, hsize]
      apply copies_whole (hpos (nonempty_iff_ne_empty.mpr hempty))
      rw [hsource]
      exact Ico_subset_Ico_right (by omega)
    · have hcard' : ¬ (source.card : ℤ) = radix (level + 1) := by exact_mod_cast hfull
      simp only [if_neg hcard']
      have hscan := copyScan_spec ih hn (hnode.sub hempty hfull) blistMetaRadix
        (by rfl : 16 + 0 = 16) (by omega : 0 * radix level + count ≤ n)
      simpa only [child, Nat.zero_mul, Nat.add_zero, Nat.zero_add] using hscan

/-! ## The list -/

end DragonFly.Kern
