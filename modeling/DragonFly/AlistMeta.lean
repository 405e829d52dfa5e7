import DragonFly.AlistAllocation

/-!
# Allocation from meta nodes

A run no smaller than a child is taken from the bits of the node itself, and any
other run from the children, one after the other.  A search trusts the hints of the
nodes in front of it and does not change them before it gets there.  So where all hints
are sound, it fails only if there is no aligned run of free blocks at or behind its
start, wherever it starts.
-/

namespace DragonFly.Alst

open BitRange Finset AllocResult
open Kern (radix skip nextSkip child childRange mem_childRange radix_succ
  radix_pos bmapRadix_le_radix scan_lt_child Agree Frame)

/-! ## Runs of whole children -/

variable {q j level blk scan start k blocks : ℕ} {free : Finset ℕ} {root root' : Memory}
  {hinted sure : Prop}

theorem metaRun_spec (bitmap : BitVec 32) (blk start size fuel : ℕ) (hpos : 0 < q)
    (hsixteen : q ∣ 16) (hmask : j + q ≤ 16 → bits mask = Ico (2 * j) (2 * j + q * 2)) (hj : q ∣ j)
    (hfuel : 16 ≤ j + fuel * q) :
    (∀ j' mask', metaRun bitmap blk start size (q * 2) fuel mask j = some (j', mask') →
        q ∣ j' ∧ j' + q ≤ 16 ∧ start ≤ blk + j' * size ∧
          bits mask' = Ico (2 * j') (2 * j' + q * 2) ∧
          Ico (2 * j') (2 * j' + q * 2) ⊆ bits bitmap) ∧
      (metaRun bitmap blk start size (q * 2) fuel mask j = none →
        ∀ j', j ≤ j' → q ∣ j' → j' + q ≤ 16 → start ≤ blk + j' * size →
          ¬Ico (2 * j') (2 * j' + q * 2) ⊆ bits bitmap) := by
  have hradix : alistMetaRadix = 16 := rfl
  induction fuel generalizing mask j with
  | zero =>
    rw [Nat.zero_mul, Nat.add_zero] at hfuel
    refine ⟨fun j' mask' h => by simp [metaRun] at h, ?_⟩
    intro _ j' hle _ hfit
    omega
  | succ fuel ih =>
    unfold metaRun
    by_cases hin : j < alistMetaRadix
    · have hbits := hmask (add_le_of_dvd_of_lt hj hsixteen hin)
      rw [if_pos hin]
      by_cases hall : bitmap &&& mask = mask ∧ blk + j * size ≥ start
      · rw [if_pos hall]
        constructor
        · intro j' mask' h
          rw [Option.some.injEq, Prod.mk.injEq] at h
          obtain ⟨rfl, rfl⟩ := h
          rw [and_eq_right_iff, hbits] at hall
          exact ⟨hj, add_le_of_dvd_of_lt hj hsixteen hin, hall.2, hbits, hall.1⟩
        · intro h
          cases h
      · rw [if_neg hall]
        have hhalf : q * 2 / 2 = q := Nat.mul_div_cancel q (by norm_num)
        rw [hhalf]
        have hmask' : j + q + q ≤ 16 → bits (mask <<< (q * 2)) =
            Ico (2 * (j + q)) (2 * (j + q) + q * 2) := by
          intro hfit
          have hroom : 2 * j + q * 2 + q * 2 ≤ 32 := by omega
          have hshift := bits_shiftLeft hbits hroom
          have hdouble : 2 * (j + q) = 2 * j + q * 2 := by ring
          rw [hshift, hdouble]
        have hnext := ih hmask' (Nat.dvd_add hj dvd_rfl) (by rw [Nat.succ_mul] at hfuel; omega)
        refine ⟨hnext.1, ?_⟩
        intro hnone j' hle hdvd hfit hplace
        rcases Nat.eq_or_lt_of_le hle with rfl | hlt
        · intro hsub
          rw [and_eq_right_iff, hbits] at hall
          exact hall ⟨hsub, hplace⟩
        · exact hnext.2 hnone j' (add_le_of_dvd_of_lt hj hdvd hlt) hdvd hfit hplace
    · rw [if_neg hin]
      refine ⟨fun j' mask' h => by simp at h, ?_⟩
      intro _ j' hle _ hfit
      omega

theorem mem_run_iff (hx : x ∈ childRange level blk i) :
    x ∈ Ico (blk + j * radix level)
        (blk + j * radix level + q * radix level) ↔ j ≤ i ∧ i < j + q := by
  rw [mem_childRange] at hx
  rw [mem_Ico]
  constructor
  · rintro ⟨hlow, hhigh⟩
    constructor
    · by_contra hlt
      have hmul : (i + 1) * radix level ≤ j * radix level := Nat.mul_le_mul_right _ (not_le.mp hlt)
      rw [Nat.succ_mul] at hmul
      omega
    · by_contra hge
      have hmul : (j + q) * radix level ≤ i * radix level := Nat.mul_le_mul_right _ (not_lt.mp hge)
      rw [Nat.add_mul] at hmul
      omega
  · rintro ⟨hlow, hhigh⟩
    have hmul : j * radix level ≤ i * radix level := Nat.mul_le_mul_right _ hlow
    have hmul' : (i + 1) * radix level ≤ (j + q) * radix level := Nat.mul_le_mul_right _ hhigh
    rw [Nat.succ_mul, Nat.add_mul] at hmul'
    omega

theorem Sound.run_subset (h : Sound hinted root (level + 1) scan blk free) (hfit : j + q ≤ 16)
    (hrun : Ico (2 * j) (2 * j + q * 2) ⊆ bits (root scan).bmBitmap) :
    Ico (blk + j * radix level) (blk + j * radix level + q * radix level) ⊆ free := by
  intro x hx
  have hnode : x ∈ Ico blk (blk + radix (level + 1)) := by
    have hmul : (j + q) * radix level ≤ 16 * radix level := Nat.mul_le_mul_right _ hfit
    rw [Nat.add_mul] at hmul
    rw [mem_Ico] at hx
    rw [mem_Ico, radix_succ]
    omega
  obtain ⟨i, hi, hmem⟩ := exists_childRange hnode
  have hin := (mem_run_iff hmem).mp hx
  have hbit : 2 * i + 1 ∈ Ico (2 * j) (2 * j + q * 2) := by
    rw [mem_Ico]
    omega
  exact (h.2.1 i hi).full.mp (mem_bits.mp (hrun hbit)) hmem

theorem Sound.run_sdiff
    (h : Sound hinted root (level + 1) scan blk free) (hothers : ∀ i, i ≠ scan → root' i = root i)
    (hbits : bits (root' scan).bmBitmap = bits (root scan).bmBitmap \ Ico (2 * j) (2 * j + q * 2))
    (hhint : (root' scan).bmBighint = (root scan).bmBighint) :
    Sound hinted root' (level + 1) scan blk (free \ Ico (blk + j * radix level)
        (blk + j * radix level + q * radix level)) := by
  obtain ⟨hsub, hfields, hchildren, hcovers⟩ := h
  have hbit : ∀ n, (root' scan).bmBitmap.getLsbD n = true ↔ (root scan).bmBitmap.getLsbD n = true ∧
        ¬(2 * j ≤ n ∧ n < 2 * j + q * 2) := by
    intro n
    have hmem := Finset.ext_iff.mp hbits n
    rw [Finset.mem_sdiff, mem_bits, mem_bits, Finset.mem_Ico] at hmem
    exact hmem
  have hkept : ∀ i, ¬(j ≤ i ∧ i < j + q) → ∀ n, n / 2 = i → (root' scan).bmBitmap.getLsbD n =
        (root scan).bmBitmap.getLsbD n := by
    intro i hout n hn
    rw [Bool.eq_iff_iff, hbit]
    constructor
    · exact fun hboth => hboth.1
    · exact fun hset => ⟨hset, by omega⟩
  have hcleared : ∀ i, j ≤ i ∧ i < j + q → ∀ n, n / 2 = i →
      ¬(root' scan).bmBitmap.getLsbD n = true := by
    intro i hin n hn hset
    exact ((hbit n).mp hset).2 (by omega)
  refine ⟨sdiff_subset.trans hsub, ?_, ?_, ?_⟩
  · intro i hi
    by_cases hin : j ≤ i ∧ i < j + q
    · constructor
      · refine ⟨fun hset => absurd hset (hcleared i hin _ (by omega)), ?_⟩
        intro hall
        obtain ⟨x, hx⟩ := childRange_nonempty level blk i
        exact absurd ((mem_run_iff hx).mpr hin) (mem_sdiff.mp (hall hx)).2
      · refine ⟨fun hset => absurd hset (hcleared i hin _ (by omega)), ?_⟩
        rintro ⟨x, hx⟩
        rw [mem_inter, mem_sdiff] at hx
        exact absurd ((mem_run_iff hx.2).mpr hin) hx.1.2
    · apply (hfields i hi).congr
      · exact hkept i hin _ (by omega)
      · exact hkept i hin _ (by omega)
      · intro x hx
        rw [mem_sdiff, mem_run_iff hx]
        exact ⟨fun hboth => hboth.1, fun hfree => ⟨hfree, hin⟩⟩
  · intro i hi hmixed
    have hout : ¬(j ≤ i ∧ i < j + q) := fun hin => hcleared i hin (2 * i) (by omega) hmixed.1
    have hsame : (free \ Ico (blk + j * radix level) (blk + j * radix level + q * radix level)) ∩
          childRange level blk i = free ∩ childRange level blk i := by
      ext x
      rw [mem_inter, mem_inter, mem_sdiff]
      constructor
      · exact fun hx => ⟨hx.1.1, hx.2⟩
      · exact fun hx =>
          ⟨⟨hx.1, fun hin => hout ((mem_run_iff hx.2).mp hin)⟩, hx.2⟩
    rw [hsame]
    apply (hchildren i hi ?_).congr
    · intro n hle _
      have hlt := scan_lt_child level scan i
      exact hothers n (by omega)
    · unfold Mixed at hmixed ⊢
      rw [hkept i hout _ (by omega), hkept i hout _ (by omega)] at hmixed
      exact hmixed
  · intro hh
    rw [hhint]
    exact (hcovers hh).mono le_rfl sdiff_subset

theorem metaFailed_result
    (hframe : Frame root root' level scan) (hshape : Shape blocks root' level scan blk)
    (hsound : Sound hinted root' level scan blk free) (hsure : hinted → sure)
    (hnone : sure → ∀ b, 2 ^ k ∣ b → start ≤ b → ¬Ico b (b + 2 ^ k) ⊆ free) :
    AllocResult hinted sure blocks root level scan blk start (2 ^ k) free
      (metaFailed root' scan blk start (2 ^ k), none) := by
  unfold metaFailed
  split_ifs with hlow
  · apply of_none
    · exact hframe.trans (frame_modify root' level scan _)
    · apply hshape.scan_changed (fun i hi => modify_of_ne root' _ hi)
      rw [modify_same]
      cases k with
      | zero =>
        show (0 : ℕ) ≠ alistTerminator
        decide
      | succ k =>
        rw [pow_succ, Nat.mul_div_cancel _ (by norm_num)]
        exact two_pow_ne_terminator k
    · apply hsound.hint_changed (fun i hi => modify_of_ne root' _ hi)
      · rw [modify_same]
      · intro hh k' b hb hrun
        rw [modify_same]
        have hbegin := mem_Ico.mp (hsound.subset (hrun (mem_Ico.mpr
            ⟨le_rfl, Nat.lt_add_of_pos_right (by positivity)⟩)))
        -- a run of this size or a larger one would have been found
        have hlt : k' < k := by
          by_contra hge
          have hle : 2 ^ k ≤ 2 ^ k' := Nat.pow_le_pow_right (by norm_num) (not_lt.mp hge)
          apply hnone (hsure hh) b ((pow_dvd_pow 2 (not_lt.mp hge)).trans hb)
          · omega
          · exact (Ico_subset_Ico_right (by omega)).trans hrun
        have hle : 2 ^ (k' + 1) ≤ 2 ^ k := Nat.pow_le_pow_right (by norm_num) hlt
        rw [pow_succ] at hle
        show 2 ^ k' ≤ 2 ^ k / 2
        omega
    · exact hnone
  · exact of_none hframe hshape hsound hnone

/-! ## Allocation from a child -/

theorem openChild_frame (root : Memory) (level scan j : ℕ) :
    Frame root (openChild root level scan j) level (child level scan j) := by
  unfold openChild
  split_ifs
  · exact frame_modify root level _ _
  · exact Frame.refl _ _ _

theorem openChild_shape (hj : j < 16) (h : Shape blocks root (level + 1) scan blk) :
    Shape blocks (openChild root level scan j) (level + 1) scan blk := by
  apply h.child_changed (openChild_frame root level scan j)
  intro hblocks
  have hchild := h.2 j hj hblocks
  unfold openChild
  split_ifs
  · apply hchild.scan_changed (fun i hi => modify_of_ne root _ hi)
    rw [modify_same]
    exact radix_ne_terminator level
  · exact hchild

theorem openChild_child
    (hj : j < 16) (hfield : Field (root scan).bmBitmap j (childRange level blk j) free)
    (hchild : Mixed (root scan).bmBitmap j → Sound hinted root level (child level scan j)
        (blk + j * radix level) (free ∩ childRange level blk j))
    (hsome : free ∩ childRange level blk j ≠ ∅) :
    Sound hinted (openChild root level scan j) level (child level scan j)
      (blk + j * radix level) (free ∩ childRange level blk j) := by
  unfold openChild
  split_ifs with hfull
  · rw [hfield.full_iff hj] at hfull
    rw [inter_eq_right.mpr hfull, childRange_eq]
    apply sound_full
    · rw [modify_same]
    · rw [modify_same]
  · apply hchild
    constructor
    · rw [hfield.part]
      exact nonempty_iff_ne_empty.mpr hsome
    · rw [hfield.full_iff hj, ← hfield.full] at hfull
      exact Bool.eq_false_iff.mpr hfull

theorem openChild_sound (hj : j < 16) (h : Sound hinted root (level + 1) scan blk free) :
    Sound hinted (openChild root level scan j) (level + 1) scan blk free := by
  apply h.child_refreshed hj (openChild_frame root level scan j)
  intro hmixed
  apply openChild_child hj (h.2.1 j hj) (h.2.2.1 j hj)
  exact nonempty_iff_ne_empty.mp ((h.2.1 j hj).part.mp hmixed.1)

theorem markAllocated_sound (hj : j < 16) (h : Sound hinted root (level + 1) scan blk free)
    (hframe : Frame root root' level (child level scan j))
    (hrun : run ⊆ free ∩ childRange level blk j) (hsome : run.Nonempty)
    (hchild : Sound hinted root' level (child level scan j)
      (blk + j * radix level) ((free ∩ childRange level blk j) \ run)) :
    Sound hinted (markAllocated root' level scan j) (level + 1) scan blk (free \ run) := by
  have hrest : (free ∩ childRange level blk j) \ run = (free \ run) ∩ childRange level blk j := by
    ext x
    simp only [mem_sdiff, mem_inter]
    tauto
  rw [hrest] at hchild
  have hscan := hframe.scan_of_child
  have hmodify : markAllocated root' level scan j scan =
      if (root' (child level scan j)).bmBitmap = 0 then
        { root scan with
          bmBitmap := (root scan).bmBitmap &&& ~~~fieldMask j }
      else
        { root scan with
          bmBitmap :=
            ((root scan).bmBitmap &&& ~~~fieldMask j) ||| partMask j } := by
    rw [markAllocated, modify_same, hscan]
  have hagree : Agree root' (markAllocated root' level scan j) level
      (child level scan j) := agree_child_modify root' level scan j _
  have hhint : (markAllocated root' level scan j scan).bmBighint = (root scan).bmBighint := by
    rw [hmodify]
    split_ifs
    · rfl
    · rfl
  apply h.child_changed hj
  · intro i hi
    exact (hframe.agree_sibling hi).trans (agree_child_modify root' level scan i _)
  · intro i hlow hhigh
    rw [hmodify]
    split_ifs
    · rw [getLsbD_clear hj]
      simp [hlow, hhigh]
    · rw [getLsbD_setPart hj]
      simp [hlow, hhigh]
  · intro b hb
    rw [mem_sdiff]
    constructor
    · exact fun hboth => hboth.1
    · exact fun hfree =>
        ⟨hfree, fun hin => hb (mem_inter.mp (hrun hin)).2⟩
  · rw [hmodify]
    split_ifs with hzero
    · exact field_clear hj (childRange_nonempty level blk j) (hchild.eq_empty_iff.mp hzero)
    · apply field_setPart hj
      · rw [hchild.eq_empty_iff] at hzero
        exact nonempty_iff_ne_empty.mpr hzero
      · intro hall
        obtain ⟨x, hx⟩ := hsome
        have hin := (mem_inter.mp (hrun hx)).2
        exact (mem_sdiff.mp (hall hin)).2 hx
  · exact fun _ => hchild.congr hagree
  · intro hh
    rw [hhint]
    exact (h.hint hh).mono le_rfl sdiff_subset

theorem markAllocated_shape (j : ℕ) (h : Shape blocks root (level + 1) scan blk) :
    Shape blocks (markAllocated root level scan j) (level + 1) scan blk := by
  unfold markAllocated
  apply h.scan_changed (fun i hi => modify_of_ne root _ hi)
  rw [modify_same]
  split_ifs
  · exact h.bighint
  · exact h.bighint

theorem Safe.child (h : Safe free start (2 ^ k)) (halign : radix (level + 1) ∣ blk) :
    Safe (free ∩ childRange level blk j) start (2 ^ k) := by
  by_cases hbig : 32 ≤ 2 ^ k
  · exact Or.inl hbig
  have h32 : 32 ∣ radix level := by
    rw [radix_eq_pow, pow_add]
    exact Dvd.intro_left _ rfl
  have hcount : 2 ^ k ∣ 32 := by
    have hpow : (32 : ℕ) = 2 ^ 5 := by norm_num
    rw [hpow] at hbig ⊢
    exact pow_dvd_pow 2 ((Nat.pow_lt_pow_iff_right (by norm_num)).mp (not_le.mp hbig)).le
  rcases h with hbig' | hsmall | ⟨b, hb, hle, hlt, hrun⟩ | hall
  · exact absurd hbig' hbig
  · exact Or.inr (Or.inl hsmall)
  · by_cases hin : start / 32 * 32 ∈ childRange level blk j
    · -- the run lies in the leaf of `start`, the leaf in the child
      have hsub : Ico (start / 32 * 32) (start / 32 * 32 + 32) ⊆ childRange level blk j := by
        apply Ico_subset_of_aligned h32 (Dvd.intro_left _ rfl) (radix_dvd_child halign j) _ hin
        rw [mem_Ico]
        omega
      have hpos : 0 < 2 ^ k := Nat.pos_of_dvd_of_pos hcount (by norm_num)
      have hrun' : Ico b (b + 2 ^ k) ⊆ Ico (start / 32 * 32) (start / 32 * 32 + 32) := by
        apply Ico_subset_of_aligned hcount hb (Dvd.intro_left _ rfl)
          (mem_Ico.mpr ⟨le_rfl, Nat.lt_add_of_pos_right hpos⟩)
        rw [mem_Ico]
        omega
      exact Or.inr (Or.inr (Or.inl ⟨b, hb, hle, hlt, subset_inter hrun (hrun'.trans hsub)⟩))
    · refine Or.inr (Or.inr (Or.inr ?_))
      intro x hx hlow
      by_contra hlt'
      apply hin
      have hx' := (mem_inter.mp hx).2
      have hsub : Ico (start / 32 * 32) (start / 32 * 32 + 32) ⊆ childRange level blk j := by
        apply Ico_subset_of_aligned h32 (Dvd.intro_left _ rfl) (radix_dvd_child halign j) _ hx'
        rw [mem_Ico]
        omega
      apply hsub
      rw [mem_Ico]
      omega
  · refine Or.inr (Or.inr (Or.inr ?_))
    intro x hx hlow
    exact hall x (mem_inter.mp hx).1 hlow

def NoRunBefore (free : Finset ℕ) (level blk start count j : ℕ) : Prop :=
  ∀ b, count ∣ b → start ≤ b → Ico b (b + count) ⊆ free → ∀ i < j, b ∉ childRange level blk i

theorem NoRunBefore.succ (h : NoRunBefore free level blk start count j)
    (hj : ∀ b, count ∣ b → start ≤ b → Ico b (b + count) ⊆ free → b ∉ childRange level blk j) :
    NoRunBefore free level blk start count (j + 1) := by
  intro b hb hle hrun i hi
  rcases Nat.lt_succ_iff_lt_or_eq.mp hi with hlt | rfl
  · exact h b hb hle hrun i hlt
  · exact hj b hb hle hrun

/-- No run is left where every block of the node from child `j` on is
allocated. -/
theorem NoRunBefore.none (hpos : 0 < count) (hsub : free ⊆ Ico blk (blk + radix (level + 1)))
    (hrest : ∀ x ∈ free, x < blk + j * radix level) (h : NoRunBefore free level blk start count j) :
    ∀ b, count ∣ b → start ≤ b → ¬Ico b (b + count) ⊆ free := by
  intro b hb hle hrun
  have hmem : b ∈ free := hrun (mem_Ico.mpr ⟨le_rfl, Nat.lt_add_of_pos_right hpos⟩)
  obtain ⟨i, -, hi⟩ := exists_childRange (hsub hmem)
  apply h b hb hle hrun i _ hi
  by_contra hge
  have hmul : j * radix level ≤ i * radix level := Nat.mul_le_mul_right _ (not_lt.mp hge)
  have hlt := hrest b hmem
  rw [mem_childRange] at hi
  omega

/-- A function that allocates runs of `2 ^ k` blocks from nodes of a level. -/
def Allocates (hinted sure : Prop) (blocks start k level : ℕ)
    (alloc : Memory → ℕ → ℕ → Memory × Option ℕ) : Prop :=
  ∀ {root scan blk free}, Shape blocks root level scan blk →
    Sound hinted root level scan blk free → (sure → Sound True root level scan blk free) →
    radix level ∣ blk → free ⊆ Finset.range blocks → (hinted → Safe free start (2 ^ k)) →
    AllocResult hinted sure blocks root level scan blk start (2 ^ k) free (alloc root scan blk)

variable {alloc : Memory → ℕ → ℕ → Memory × Option ℕ}

theorem allocScan_result (left : ℕ) (halloc : Allocates hinted sure blocks start k level alloc)
    (halign : radix (level + 1) ∣ blk) (hcount : 2 ^ k ≤ radix level)
    (hblocks : free ⊆ Finset.range blocks)
    (hsafe : hinted → Safe free start (2 ^ k)) (hleft : left + j = 16)
    (hframe : Frame root root' (level + 1) scan) (hshape : Shape blocks root' (level + 1) scan blk)
    (hsound : Sound hinted root' (level + 1) scan blk free)
    (hbefore : sure → Sound True root (level + 1) scan blk free) (hscan : root' scan = root scan)
    (hagree : ∀ i, j ≤ i → Agree root root' level (child level scan i))
    (hseen : sure → NoRunBefore free level blk start (2 ^ k) j) :
    AllocResult hinted sure blocks root (level + 1) scan blk start (2 ^ k) free
      (allocScan alloc level scan blk start (2 ^ k) left root' j) := by
  have hpos : 0 < 2 ^ k := Nat.pos_of_ne_zero (by positivity)
  induction left generalizing root' j with
  | zero =>
    unfold allocScan
    apply of_none hframe hshape hsound
    intro hh
    apply (hseen hh).none hpos hsound.subset
    intro x hx
    have hmem := mem_Ico.mp (hsound.subset hx)
    have hj : j = 16 := by omega
    rw [radix_succ] at hmem
    rw [hj]
    omega
  | succ left ih =>
    have hj : j < 16 := by omega
    unfold allocScan
    by_cases hterm : (root' (child level scan j)).bmBighint = alistTerminator
    · -- the child and those behind it are outside of the list
      rw [if_pos hterm]
      apply of_none hframe hshape hsound
      intro hh
      apply (hseen hh).none hpos hsound.subset
      intro x hx
      by_contra hge
      have hlt := mem_range.mp (hblocks hx)
      exact (hshape.2 j hj (by omega)).bighint hterm
    · rw [if_neg hterm]
      have hframe' := openChild_frame root' level scan j
      have hshape' := openChild_shape hj hshape
      have hsound' := openChild_sound hj hsound
      have hall := hframe.trans (hframe'.of_child hj)
      -- the records behind child `j` are those the search began with
      have hnext : ∀ root'', Frame root' root'' level (child level scan j) →
          Shape blocks root'' (level + 1) scan blk →
          Sound hinted root'' (level + 1) scan blk free →
          (sure → ∀ b, 2 ^ k ∣ b → start ≤ b → Ico b (b + 2 ^ k) ⊆ free →
              b ∉ childRange level blk j) →
          AllocResult hinted sure blocks root (level + 1) scan blk start
            (2 ^ k) free (allocScan alloc level scan blk start (2 ^ k) left root'' (j + 1)) := by
        intro root'' hf hs hso hno
        apply ih (by omega) (hframe.trans (hf.of_child hj)) hs hso
          (hf.scan_of_child.trans hscan) _ (fun hh => (hseen hh).succ (hno hh))
        intro i hi
        exact (hagree i (by omega)).trans (hf.agree_sibling (by omega))
      have hchild_run : ∀ b, 2 ^ k ∣ b → b ∈ childRange level blk j → Ico b (b + 2 ^ k) ⊆ free →
          Ico b (b + 2 ^ k) ⊆ free ∩ childRange level blk j := by
        intro b hb hin hrun
        apply subset_inter hrun
        exact run_subset_child halign hcount hb
          (mem_Ico.mpr ⟨le_rfl, Nat.lt_add_of_pos_right hpos⟩) hin
      have hfirst : ∀ b, b ∈ Ico b (b + 2 ^ k) := fun b =>
        mem_Ico.mpr ⟨le_rfl, Nat.lt_add_of_pos_right hpos⟩
      by_cases hzero :
          (openChild root' level scan j scan).bmBitmap &&& fieldMask j = 0
      · rw [if_pos hzero]
        apply hnext _ hframe' hshape' hsound'
        intro _ b hb _ hrun hin
        rw [(hsound'.2.1 j hj).empty_iff hj] at hzero
        have hmem := hchild_run b hb hin hrun (hfirst b)
        rw [hzero] at hmem
        exact notMem_empty b hmem
      · rw [if_neg hzero]
        rw [(hsound'.2.1 j hj).empty_iff hj] at hzero
        by_cases hfar : blk + j * radix level + radix level ≤ start
        · rw [if_pos hfar]
          apply hnext _ hframe' hshape' hsound'
          intro _ b _ hle _ hin
          rw [mem_childRange] at hin
          omega
        · rw [if_neg hfar]
          have hchild := openChild_child hj (hsound.2.1 j hj) (hsound.2.2.1 j hj) hzero
          have hchild' : sure → Sound True (openChild root' level scan j) level
              (child level scan j) (blk + j * radix level)
              (free ∩ childRange level blk j) := by
            intro hh
            apply openChild_child hj (hsound.2.1 j hj) _ hzero
            intro hmixed
            rw [hscan] at hmixed
            exact ((hbefore hh).2.2.1 j hj hmixed).congr (hagree j le_rfl)
          by_cases hhint :
              2 ^ k ≤ (openChild root' level scan j (child level scan j)).bmBighint
          · rw [if_pos hhint]
            have hinside : blk + j * radix level < blocks := by
              obtain ⟨x, hx⟩ := nonempty_iff_ne_empty.mpr hzero
              rw [mem_inter, mem_childRange] at hx
              have hlt := mem_range.mp (hblocks hx.1)
              omega
            have hres := halloc (hshape'.2 j hj hinside) hchild hchild' (radix_dvd_child halign j)
              (inter_subset_left.trans hblocks)
              (fun hh => (hsafe hh).child halign)
            split
            · next root'' r heq =>
                rw [heq] at hres
                obtain ⟨hle, hdvd, hrun, hrest⟩ := hres.taken r rfl
                have hshape'' : Shape blocks root'' (level + 1) scan blk :=
                  hshape'.child_changed hres.frame (fun _ => hres.shape)
                apply of_some
                · exact (hall.trans (hres.frame.of_child hj)).trans
                    (frame_modify root'' (level + 1) scan _)
                · exact markAllocated_shape j hshape''
                · exact hle
                · exact hdvd
                · exact hrun.trans inter_subset_left
                · exact markAllocated_sound hj hsound' hres.frame hrun ⟨r, hfirst r⟩ hrest
            · next root'' heq =>
                rw [heq] at hres
                obtain ⟨hsound'', hnone⟩ := hres.failed rfl
                apply hnext root''
                · exact hframe'.trans hres.frame
                · exact hshape'.child_changed hres.frame (fun _ => hres.shape)
                · exact hsound'.child_refreshed hj hres.frame (fun _ => hsound'')
                · intro hh b hb hle hrun hin
                  exact hnone hh b hb hle (hchild_run b hb hin hrun)
          · rw [if_neg hhint]
            apply hnext _ hframe' hshape' hsound'
            intro hh b hb _ hrun hin
            exact hhint ((hchild' hh).hint trivial k b hb (hchild_run b hb hin hrun))

/-! ## Allocation from any node -/

theorem run_children (hle : radix level ≤ 2 ^ k) (hlt : 2 ^ k < radix (level + 1)) :
    2 ^ k = 2 ^ k / radix level * radix level ∧
      0 < 2 ^ k / radix level ∧ 2 ^ k / radix level ∣ 16 := by
  rw [radix_eq_pow] at hle hlt ⊢
  have hk : 4 * level + 5 ≤ k := (Nat.pow_le_pow_iff_right (by norm_num)).mp hle
  have hk' : k < 4 * (level + 1) + 5 := (Nat.pow_lt_pow_iff_right (by norm_num)).mp hlt
  have hdvd : 2 ^ (4 * level + 5) ∣ 2 ^ k := pow_dvd_pow 2 hk
  have hdiv : 2 ^ k / 2 ^ (4 * level + 5) = 2 ^ (k - (4 * level + 5)) :=
    Nat.pow_div hk (by norm_num)
  refine ⟨(Nat.div_mul_cancel hdvd).symm, Nat.div_pos hle (by positivity), ?_⟩
  have h16 : (16 : ℕ) = 2 ^ 4 := by norm_num
  rw [hdiv, h16]
  exact pow_dvd_pow 2 (by omega)

theorem Sound.run_bits (h : Sound hinted root (level + 1) scan blk free) (hfit : j + q ≤ 16)
    (hrun : Ico (blk + j * radix level)
      (blk + j * radix level + q * radix level) ⊆ free) :
    Ico (2 * j) (2 * j + q * 2) ⊆ bits (root scan).bmBitmap := by
  intro n hn
  rw [mem_Ico] at hn
  have hi : n / 2 < 16 := by omega
  have hfield := h.2.1 (n / 2) hi
  have hsub : childRange level blk (n / 2) ⊆ free := by
    intro x hx
    apply hrun
    rw [mem_run_iff hx]
    omega
  have hboth := (and_fieldMask_eq_self hi).mp ((hfield.full_iff hi).mpr hsub)
  rw [mem_bits]
  rcases Nat.mod_two_eq_zero_or_one n with hmod | hmod
  · have heq : n = 2 * (n / 2) := by omega
    rw [heq]
    exact hboth.1
  · have heq : n = 2 * (n / 2) + 1 := by omega
    rw [heq]
    exact hboth.2

theorem metaRun_result (hshape : Shape blocks root (level + 1) scan blk)
    (hsound : Sound hinted root (level + 1) scan blk free)
    (halign : radix (level + 1) ∣ blk) (hle : radix level ≤ 2 ^ k)
    (hlt : 2 ^ k < radix (level + 1)) :
    AllocResult hinted True blocks root (level + 1) scan blk start (2 ^ k) free
      (match metaRun (root scan).bmBitmap blk start (radix level)
          (2 ^ k / radix level * 2) alistMetaRadix (BitVec.allOnes 32 >>>
            (alistBmapRadix - 2 ^ k / radix level * 2)) 0 with
      | some (j, mask) =>
        (root.modify scan fun node =>
          { node with bmBitmap := node.bmBitmap &&& ~~~mask },
          some (blk + j * radix level))
      | none => (metaFailed root scan blk start (2 ^ k), none)) := by
  obtain ⟨hsize, hqpos, hq⟩ := run_children hle hlt
  have hdvd : 2 ^ k ∣ radix (level + 1) := by
    rw [radix_eq_pow] at hlt ⊢
    exact pow_dvd_pow 2 ((Nat.pow_lt_pow_iff_right (by norm_num)).mp hlt).le
  have hpos := radix_pos level
  generalize hgen : 2 ^ k / radix level = q at hsize hqpos hq ⊢
  have hq16 : q ≤ 16 := Nat.le_of_dvd (by norm_num) hq
  have hfirst : bits (BitVec.allOnes 32 >>> (alistBmapRadix - q * 2)) =
      Ico (2 * 0) (2 * 0 + q * 2) :=
    Kern.bits_firstMask (by omega)
  have hfuel : 16 ≤ 0 + alistMetaRadix * q := by
    have hradix : alistMetaRadix = 16 := rfl
    rw [hradix]
    omega
  have hfind := metaRun_spec (root scan).bmBitmap blk start (radix level)
    alistMetaRadix hqpos hq (fun _ => hfirst) (dvd_zero q) hfuel
  split
  · next j mask heq =>
      obtain ⟨hj, hfit, hstart, hmask, hin⟩ := hfind.1 j mask heq
      apply of_some
      · exact frame_modify root (level + 1) scan _
      · apply hshape.scan_changed (fun i hi => modify_of_ne root _ hi)
        rw [modify_same]
        exact hshape.bighint
      · exact hstart
      · apply Nat.dvd_add (hdvd.trans halign)
        rw [hsize]
        exact Nat.mul_dvd_mul_right hj _
      · rw [hsize]
        exact hsound.run_subset hfit hin
      · rw [hsize]
        apply hsound.run_sdiff (fun i hi => modify_of_ne root _ hi)
        · rw [modify_same, bits_and_not, hmask]
        · rw [modify_same]
  · next heq =>
      apply metaFailed_result (Frame.refl _ _ _) hshape hsound (fun _ => trivial)
      intro _ b hb hle' hrun
      have hkpos : 0 < 2 ^ k := Nat.pos_of_ne_zero (by positivity)
      have hbegin := mem_Ico.mp (hsound.subset (hrun
        (mem_Ico.mpr ⟨le_rfl, Nat.lt_add_of_pos_right hkpos⟩)))
      have hnode : Ico b (b + 2 ^ k) ⊆ Ico blk (blk + radix (level + 1)) :=
        Ico_subset_of_aligned hdvd hb halign (mem_Ico.mpr ⟨le_rfl, Nat.lt_add_of_pos_right hkpos⟩)
          (mem_Ico.mpr hbegin)
      have hend := mem_Ico.mp (hnode (mem_Ico.mpr (⟨by omega, by omega⟩ : b ≤ b + 2 ^ k - 1 ∧
          b + 2 ^ k - 1 < b + 2 ^ k)))
      -- the run begins at a child whose number is a multiple of `q`
      obtain ⟨t, ht⟩ := Nat.dvd_sub hb (hdvd.trans halign)
      have hplace : b = blk + q * t * radix level := by
        have hmul : 2 ^ k * t = q * t * radix level := by
          rw [hsize]
          ring
        omega
      have hfit : q * t + q ≤ 16 := by
        have hmul : (q * t + q) * radix level ≤ 16 * radix level := by
          rw [Nat.add_mul, ← hsize]
          rw [radix_succ] at hend
          omega
        exact Nat.le_of_mul_le_mul_right hmul hpos
      apply hfind.2 heq (q * t) (Nat.zero_le _) (Dvd.intro t rfl) hfit
      · rw [← hplace]
        exact hle'
      · apply hsound.run_bits hfit
        rw [← hplace, ← hsize]
        exact hrun

theorem alstMetaAlloc_result
    (halloc : 2 ^ k < radix level → Allocates hinted sure blocks start k level alloc)
    (hsure : hinted → sure) (hcount : 2 ^ k < radix (level + 1)) :
    Allocates hinted sure blocks start k (level + 1) fun root scan blk =>
      alstMetaAlloc alloc level root scan blk start (2 ^ k) := by
  intro root scan blk free hshape hsound hbefore halign hblocks hsafe
  unfold alstMetaAlloc
  beta_reduce
  by_cases hzero : (root scan).bmBitmap = 0
  · rw [if_pos hzero]
    rw [hsound.eq_empty_iff] at hzero
    apply of_none
    · exact frame_modify root (level + 1) scan _
    · apply hshape.scan_changed (fun i hi => modify_of_ne root _ hi)
      rw [modify_same]
      exact (by decide : (0 : ℕ) ≠ alistTerminator)
    · apply hsound.hint_changed (fun i hi => modify_of_ne root _ hi)
      · rw [modify_same]
      · intro _
        rw [hzero]
        exact hintCovers_empty _
    · intro _ b _ _ hrun
      have hmem := hrun (mem_Ico.mpr ⟨le_rfl, Nat.lt_add_of_pos_right (by positivity)⟩)
      rw [hzero] at hmem
      exact notMem_empty b hmem
  · rw [if_neg hzero]
    by_cases hbig : 2 ^ k ≥ radix level
    · rw [if_pos hbig]
      exact (metaRun_result hshape hsound halign hbig hcount).weaken (fun _ => trivial)
    · rw [if_neg hbig]
      have hlt := not_le.mp hbig
      have hscan : AllocResult hinted sure blocks root (level + 1) scan blk start
          (2 ^ k) free (allocScan alloc level scan blk start (2 ^ k) alistMetaRadix root 0) :=
        allocScan_result alistMetaRadix (halloc hlt)
          halign hlt.le hblocks hsafe rfl (Frame.refl _ _ _) hshape hsound hbefore rfl
          (fun _ _ _ _ _ => rfl) (fun _ b _ _ _ i hi => absurd hi (Nat.not_lt_zero i))
      split
      · next root' r heq =>
          rw [heq] at hscan
          exact hscan
      · next root' heq =>
          rw [heq] at hscan
          obtain ⟨hsound', hnone⟩ := hscan.failed rfl
          exact metaFailed_result hscan.frame hscan.shape hsound' hsure hnone

theorem alstAlloc_result (level : ℕ) (hcount : 2 ^ k < radix level) (hsure : hinted → sure) :
    Allocates hinted sure blocks start k level (alstAlloc start (2 ^ k) level) := by
  induction level with
  | zero =>
    intro root scan blk free hshape hsound _ halign _ hsafe
    exact (alstLeafAlloc_result hshape hsound halign hcount hsafe).weaken fun _ => trivial
  | succ level ih => exact alstMetaAlloc_result ih hsure hcount

/-! ## Searches without success -/

/-- No run of `count` free blocks begins at or behind `start`. -/
def NoRun (free : Finset ℕ) (start count : ℕ) : Prop :=
  ∀ b, count ∣ b → start ≤ b → ¬Ico b (b + count) ⊆ free

theorem Sound.weaken (h : Sound hinted root level scan blk free) (hw : hinted' → hinted) :
    Sound hinted' root level scan blk free := by
  induction level generalizing scan blk free with
  | zero => exact ⟨h.1, fun hh => h.2 (hw hh)⟩
  | succ level ih =>
    refine ⟨h.1, h.2.1, ?_, fun hh => h.2.2.2 (hw hh)⟩
    intro j hj hmixed
    exact ih (h.2.2.1 j hj hmixed)

theorem alstAlloc_complete
    (level : ℕ) (hcount : 2 ^ k < radix level) (hshape : Shape blocks root level scan blk)
    (hsound : Sound True root level scan blk free)
    (halign : radix level ∣ blk) (hblocks : free ⊆ Finset.range blocks)
    (hnone : (alstAlloc start (2 ^ k) level root scan blk).2 = none) : NoRun free start (2 ^ k) :=
  ((alstAlloc_result level hcount (fun _ => trivial) hshape (hsound.weaken False.elim)
    (fun _ => hsound) halign hblocks False.elim).failed hnone).2 trivial

end DragonFly.Alst
