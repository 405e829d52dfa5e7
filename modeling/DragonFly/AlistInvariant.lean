import DragonFly.AlistModel

/-!
# What an alist represents

`Sound` says which blocks are free below a node: a meta node knows of each child
whether nothing, everything or a part of it is free, and the records of a child
count only in the last case.  With `hinted` it also says that no hint is smaller
than an aligned run of free blocks whose size is a power of two.
-/

namespace DragonFly.Alst

open BitRange Finset BitVec
open Kern (radix skip nextSkip child childRange mem_childRange radix_succ
  radix_pos bmapRadix_le_radix scan_lt_child child_lt_child child_le_skip
  childRange_disjoint Agree Frame)

/-- No aligned free run is larger than the hint. -/
def HintCovers (hint : ℕ) (free : Finset ℕ) : Prop :=
  ∀ k b, 2 ^ k ∣ b → Ico b (b + 2 ^ k) ⊆ free → 2 ^ k ≤ hint

/-- The two bits of child `j`, whose blocks are `range`. -/
structure Field (bitmap : BitVec 32) (j : ℕ) (range free : Finset ℕ) :
    Prop where
  full : bitmap.getLsbD (2 * j + 1) = true ↔ range ⊆ free
  part : bitmap.getLsbD (2 * j) = true ↔ (free ∩ range).Nonempty

/-- Child `j` is neither all-allocated nor all-free. -/
def Mixed (bitmap : BitVec 32) (j : ℕ) : Prop :=
  bitmap.getLsbD (2 * j) = true ∧ bitmap.getLsbD (2 * j + 1) = false

/-- The node of the given level at `scan`, whose first block is `blk`, has exactly
the free blocks `free`. -/
def Sound (hinted : Prop) (root : Memory) : ℕ → ℕ → ℕ → Finset ℕ → Prop
  | 0, scan, blk, free =>
    free = (bits (root scan).bmBitmap).image (blk + ·) ∧
      (hinted → HintCovers (root scan).bmBighint free)
  | level + 1, scan, blk, free =>
    free ⊆ Ico blk (blk + radix (level + 1)) ∧ (∀ j < 16, Field (root scan).bmBitmap j
        (childRange level blk j) free) ∧
      (∀ j < 16, Mixed (root scan).bmBitmap j → Sound hinted root level (child level scan j)
          (blk + j * radix level) (free ∩ childRange level blk j)) ∧
      (hinted → HintCovers (root scan).bmBighint free)

/-- No record of a node with blocks of the list is a terminator. -/
def Shape (blocks : ℕ) (root : Memory) : ℕ → ℕ → ℕ → Prop
  | 0, scan, _ => (root scan).bmBighint ≠ alistTerminator
  | level + 1, scan, blk =>
    (root scan).bmBighint ≠ alistTerminator ∧ ∀ j < 16, blk + j * radix level < blocks →
        Shape blocks root level (child level scan j) (blk + j * radix level)

/-! ## Footprints -/

variable {level scan i j blk blocks b x : ℕ} {root root' : Memory} {free range free' : Finset ℕ}
  {hinted : Prop} {bitmap : BitVec 32}

theorem modify_same (root : Memory) (scan : ℕ) (f : Almeta → Almeta) :
    root.modify scan f scan = f (root scan) := by
  simp [Memory.modify]

theorem modify_of_ne (root : Memory) (f : Almeta → Almeta) (h : i ≠ scan) :
    root.modify scan f i = root i := by
  simp [Memory.modify, h]

theorem frame_modify (root : Memory) (level scan : ℕ) (f : Almeta → Almeta) :
    Frame root (root.modify scan f) level scan := by
  intro i hi
  exact modify_of_ne root f (by omega)

theorem agree_child_modify (root : Memory) (level scan j : ℕ) (f : Almeta → Almeta) :
    Agree root (root.modify scan f) level (child level scan j) := by
  intro i hle _
  have hlt := scan_lt_child level scan j
  exact modify_of_ne root f (by omega)

theorem Shape.congr (hagree : Agree root root' level scan) (h : Shape blocks root level scan blk) :
    Shape blocks root' level scan blk := by
  induction level generalizing scan blk with
  | zero =>
    unfold Shape at h ⊢
    rw [hagree scan le_rfl (Nat.le_add_right _ _)]
    exact h
  | succ level ih =>
    constructor
    · rw [hagree scan le_rfl (Nat.le_add_right _ _)]
      exact h.1
    · intro j hj hblocks
      exact ih (hagree.child hj) (h.2 j hj hblocks)

theorem Sound.congr
    (hagree : Agree root root' level scan) (h : Sound hinted root level scan blk free) :
    Sound hinted root' level scan blk free := by
  induction level generalizing scan blk free with
  | zero =>
    unfold Sound at h ⊢
    rw [hagree scan le_rfl (Nat.le_add_right _ _)]
    exact h
  | succ level ih =>
    obtain ⟨hsub, hfields, hchildren, hhint⟩ := h
    unfold Sound
    rw [hagree scan le_rfl (Nat.le_add_right _ _)]
    refine ⟨hsub, hfields, ?_, hhint⟩
    intro j hj hmixed
    exact ih (hagree.child hj) (hchildren j hj hmixed)

theorem Shape.bighint (h : Shape blocks root level scan blk) :
    (root scan).bmBighint ≠ alistTerminator := by
  cases level with
  | zero => exact h
  | succ level => exact h.1

section

variable (h : Sound hinted root level scan blk free)
include h

theorem Sound.subset : free ⊆ Ico blk (blk + radix level) := by
  cases level with
  | zero =>
    intro b hb
    rw [h.1, mem_image] at hb
    obtain ⟨i, hi, rfl⟩ := hb
    have hlt := lt_of_getLsbD (mem_bits.mp hi)
    have hradix : radix 0 = 32 := rfl
    rw [mem_Ico]
    omega
  | succ level => exact h.1

theorem Sound.hint : hinted → HintCovers (root scan).bmBighint free := by
  cases level with
  | zero => exact h.2
  | succ level => exact h.2.2.2

theorem Sound.hint_changed (hothers : ∀ i, i ≠ scan → root' i = root i)
    (hbitmap : (root' scan).bmBitmap = (root scan).bmBitmap)
    (hhint : hinted → HintCovers (root' scan).bmBighint free) :
    Sound hinted root' level scan blk free := by
  cases level with
  | zero =>
    refine ⟨?_, hhint⟩
    rw [hbitmap]
    exact h.1
  | succ level =>
    obtain ⟨hsub, hfields, hchildren, -⟩ := h
    unfold Sound
    rw [hbitmap]
    refine ⟨hsub, hfields, ?_, hhint⟩
    intro j hj hmixed
    apply (hchildren j hj hmixed).congr
    intro i hle _
    have hlt := scan_lt_child level scan j
    exact hothers i (by omega)

end

theorem Shape.scan_changed
    (h : Shape blocks root level scan blk) (hothers : ∀ i, i ≠ scan → root' i = root i)
    (hhint : (root' scan).bmBighint ≠ alistTerminator) : Shape blocks root' level scan blk := by
  cases level with
  | zero => exact hhint
  | succ level =>
    refine ⟨hhint, ?_⟩
    intro j hj hblocks
    apply (h.2 j hj hblocks).congr
    intro i hle _
    have hlt := scan_lt_child level scan j
    exact hothers i (by omega)

theorem Shape.child_changed (h : Shape blocks root (level + 1) scan blk)
    (hframe : Frame root root' level (child level scan j))
    (hchild : blk + j * radix level < blocks → Shape blocks root' level (child level scan j)
        (blk + j * radix level)) : Shape blocks root' (level + 1) scan blk := by
  constructor
  · rw [hframe.scan_of_child]
    exact h.1
  · intro i hi hblocks
    by_cases hij : i = j
    · subst hij
      exact hchild hblocks
    · exact (h.2 i hi hblocks).congr (hframe.agree_sibling hij)

/-! ## The bits of a child -/

section

variable (hj : j < 16)
include hj

theorem getLsbD_fieldMask : (fieldMask j).getLsbD i = decide (i = 2 * j ∨ i = 2 * j + 1) := by
  have hthree : ∀ n, (3#32).getLsbD n = decide (n = 0 ∨ n = 1) := by
    intro n
    by_cases hn : n < 32
    · interval_cases n <;> rfl
    · rw [getLsbD_of_ge _ _ (by omega)]
      simp
      omega
  unfold fieldMask
  rw [getLsbD_shiftLeft, hthree]
  by_cases h : i = 2 * j ∨ i = 2 * j + 1
  · have h1 : i < 32 := by omega
    have h2 : ¬i < 2 * j := by omega
    have h3 : i - 2 * j = 0 ∨ i - 2 * j = 1 := by omega
    simp [h, h1, h2, h3]
  · by_cases h2 : i < 2 * j
    · simp [h, h2]
    · have h3 : ¬(i - 2 * j = 0 ∨ i - 2 * j = 1) := by omega
      simp [h, h3]

theorem getLsbD_partMask : (partMask j).getLsbD i = decide (i = 2 * j) := by
  unfold partMask
  rw [getLsbD_shiftLeft, getLsbD_one]
  by_cases h : i = 2 * j
  · simp [h]
    omega
  · by_cases h2 : i < 2 * j
    · simp [h, h2]
    · have h3 : i - 2 * j ≠ 0 := by omega
      simp [h, h3]

theorem and_fieldMask_eq_iff (hmask : ∀ i, mask.getLsbD i = true → i = 2 * j ∨ i = 2 * j + 1) :
    bitmap &&& fieldMask j = mask ↔ bitmap.getLsbD (2 * j) = mask.getLsbD (2 * j) ∧
        bitmap.getLsbD (2 * j + 1) = mask.getLsbD (2 * j + 1) := by
  have hbit : ∀ i, (bitmap &&& fieldMask j).getLsbD i =
      (bitmap.getLsbD i && decide (i = 2 * j ∨ i = 2 * j + 1)) := by
    intro i
    rw [getLsbD_and, getLsbD_fieldMask hj]
  constructor
  · intro h
    have hlow := hbit (2 * j)
    have hhigh := hbit (2 * j + 1)
    rw [h] at hlow hhigh
    simp [hlow, hhigh]
  · rintro ⟨hlow, hhigh⟩
    apply eq_of_getLsbD_eq
    intro i _
    rw [hbit]
    by_cases h : i = 2 * j ∨ i = 2 * j + 1
    · rcases h with rfl | rfl
      · simp [hlow]
      · simp [hhigh]
    · simpa [h] using fun hi => h (hmask i hi)

theorem and_fieldMask_eq_zero :
    bitmap &&& fieldMask j = 0 ↔ bitmap.getLsbD (2 * j) = false ∧
        bitmap.getLsbD (2 * j + 1) = false := by
  rw [and_fieldMask_eq_iff hj (by simp)]
  simp

theorem and_fieldMask_eq_self :
    bitmap &&& fieldMask j = fieldMask j ↔ bitmap.getLsbD (2 * j) = true ∧
        bitmap.getLsbD (2 * j + 1) = true := by
  rw [and_fieldMask_eq_iff hj (by simp [getLsbD_fieldMask hj])]
  simp [getLsbD_fieldMask hj]

theorem getLsbD_clear :
    (bitmap &&& ~~~fieldMask j).getLsbD i =
      (!decide (i = 2 * j ∨ i = 2 * j + 1) && bitmap.getLsbD i) := by
  rw [getLsbD_and, getLsbD_not, getLsbD_fieldMask hj]
  cases hi : bitmap.getLsbD i with
  | false => simp
  | true =>
    have hlt := lt_of_getLsbD hi
    simp [hlt]

theorem getLsbD_setPart :
    ((bitmap &&& ~~~fieldMask j) ||| partMask j).getLsbD i =
      (!decide (i = 2 * j ∨ i = 2 * j + 1) && bitmap.getLsbD i || decide (i = 2 * j)) := by
  rw [getLsbD_or, getLsbD_clear hj, getLsbD_partMask hj]

theorem getLsbD_setFull :
    (bitmap ||| fieldMask j).getLsbD i =
      (bitmap.getLsbD i || decide (i = 2 * j ∨ i = 2 * j + 1)) := by
  rw [getLsbD_or, getLsbD_fieldMask hj]

theorem field_clear (hrange : range.Nonempty) (hempty : free ∩ range = ∅) :
    Field (bitmap &&& ~~~fieldMask j) j range free := by
  constructor
  · rw [getLsbD_clear hj]
    simp only [or_true, decide_true, Bool.not_true, Bool.false_and, Bool.false_eq_true, false_iff]
    intro hsub
    obtain ⟨x, hx⟩ := hrange
    have hmem := mem_inter.mpr ⟨hsub hx, hx⟩
    rw [hempty] at hmem
    exact notMem_empty x hmem
  · rw [getLsbD_clear hj, hempty]
    simp

theorem field_setPart (hsome : (free ∩ range).Nonempty) (hall : ¬range ⊆ free) :
    Field ((bitmap &&& ~~~fieldMask j) ||| partMask j) j range free := by
  constructor
  · rw [getLsbD_setPart hj]
    simp [hall]
  · rw [getLsbD_setPart hj]
    simp [hsome]

theorem field_setFull (hrange : range.Nonempty) (hall : range ⊆ free) :
    Field (bitmap ||| fieldMask j) j range free := by
  constructor
  · rw [getLsbD_setFull hj]
    simp [hall]
  · rw [getLsbD_setFull hj, inter_eq_right.mpr hall]
    simp [hrange]

end

theorem childRange_nonempty (level blk j : ℕ) : (childRange level blk j).Nonempty := by
  have hpos := radix_pos level
  refine ⟨blk + j * radix level, ?_⟩
  rw [mem_childRange]
  omega

section

variable (h : Field bitmap j (childRange level blk j) free)
include h

theorem Field.low_of_high
    (hhigh : bitmap.getLsbD (2 * j + 1) = true) :
    bitmap.getLsbD (2 * j) = true := by
  rw [h.part, inter_eq_right.mpr (h.full.mp hhigh)]
  exact childRange_nonempty level blk j

theorem Field.empty_iff (hj : j < 16) :
    bitmap &&& fieldMask j = 0 ↔ free ∩ childRange level blk j = ∅ := by
  rw [and_fieldMask_eq_zero hj]
  constructor
  · rintro ⟨hlow, -⟩
    rw [← not_nonempty_iff_eq_empty, ← h.part, hlow]
    exact Bool.false_ne_true
  · intro hempty
    have hlow : bitmap.getLsbD (2 * j) = false := by
      rw [Bool.eq_false_iff, ne_eq, h.part, not_nonempty_iff_eq_empty]
      exact hempty
    refine ⟨hlow, ?_⟩
    by_contra hhigh
    rw [Bool.not_eq_false] at hhigh
    rw [h.low_of_high hhigh] at hlow
    cases hlow

theorem Field.full_iff (hj : j < 16) :
    bitmap &&& fieldMask j = fieldMask j ↔ childRange level blk j ⊆ free := by
  rw [and_fieldMask_eq_self hj, ← h.full]
  constructor
  · exact fun hboth => hboth.2
  · exact fun hhigh => ⟨h.low_of_high hhigh, hhigh⟩

end

theorem Field.congr (h : Field bitmap j range free)
    (hlow : bitmap'.getLsbD (2 * j) = bitmap.getLsbD (2 * j))
    (hhigh : bitmap'.getLsbD (2 * j + 1) = bitmap.getLsbD (2 * j + 1))
    (hsame : ∀ b ∈ range, b ∈ free' ↔ b ∈ free) : Field bitmap' j range free' := by
  constructor
  · rw [hhigh, h.full]
    constructor
    · exact fun hsub b hb => (hsame b hb).mpr (hsub hb)
    · exact fun hsub b hb => (hsame b hb).mp (hsub hb)
  · rw [hlow, h.part]
    constructor
    · rintro ⟨b, hb⟩
      rw [mem_inter] at hb
      exact ⟨b, mem_inter.mpr ⟨(hsame b hb.2).mpr hb.1, hb.2⟩⟩
    · rintro ⟨b, hb⟩
      rw [mem_inter] at hb
      exact ⟨b, mem_inter.mpr ⟨(hsame b hb.2).mp hb.1, hb.2⟩⟩

theorem childRange_subset (hj : j < 16) :
    childRange level blk j ⊆ Ico blk (blk + radix (level + 1)) := by
  intro x hx
  rw [mem_childRange] at hx
  have hmul : (j + 1) * radix level ≤ 16 * radix level := Nat.mul_le_mul_right _ hj
  rw [Nat.succ_mul] at hmul
  rw [mem_Ico, radix_succ]
  omega

theorem Sound.child_changed (hj : j < 16) (h : Sound hinted root (level + 1) scan blk free)
    (hagree : ∀ i, i ≠ j → Agree root root' level (child level scan i))
    (hbits : ∀ i, i ≠ 2 * j → i ≠ 2 * j + 1 →
      (root' scan).bmBitmap.getLsbD i = (root scan).bmBitmap.getLsbD i)
    (hout : ∀ b, b ∉ childRange level blk j → (b ∈ free' ↔ b ∈ free))
    (hfield : Field (root' scan).bmBitmap j (childRange level blk j) free')
    (hchild : Mixed (root' scan).bmBitmap j → Sound hinted root' level (child level scan j)
        (blk + j * radix level) (free' ∩ childRange level blk j))
    (hhint : hinted → HintCovers (root' scan).bmBighint free') :
    Sound hinted root' (level + 1) scan blk free' := by
  obtain ⟨hsub, hfields, hchildren, -⟩ := h
  refine ⟨?_, ?_, ?_, hhint⟩
  · intro b hb
    by_cases hin : b ∈ childRange level blk j
    · exact childRange_subset hj hin
    · exact hsub ((hout b hin).mp hb)
  · intro i hi
    by_cases hij : i = j
    · subst hij
      exact hfield
    · apply (hfields i hi).congr
      · exact hbits (2 * i) (by omega) (by omega)
      · exact hbits (2 * i + 1) (by omega) (by omega)
      · exact fun b hb => hout b (childRange_disjoint hij hb)
  · intro i hi hmixed
    by_cases hij : i = j
    · subst hij
      exact hchild hmixed
    · have hsame : free' ∩ childRange level blk i = free ∩ childRange level blk i := by
        ext b
        simp only [mem_inter, and_congr_left_iff]
        exact fun hb => hout b (childRange_disjoint hij hb)
      rw [hsame]
      apply (hchildren i hi ?_).congr (hagree i hij)
      unfold Mixed at hmixed ⊢
      rw [hbits (2 * i) (by omega) (by omega),
        hbits (2 * i + 1) (by omega) (by omega)] at hmixed
      exact hmixed

theorem Sound.child_refreshed (hj : j < 16) (h : Sound hinted root (level + 1) scan blk free)
    (hframe : Frame root root' level (child level scan j))
    (hchild : Mixed (root scan).bmBitmap j → Sound hinted root' level (child level scan j)
        (blk + j * radix level) (free ∩ childRange level blk j)) :
    Sound hinted root' (level + 1) scan blk free := by
  have hscan := hframe.scan_of_child
  apply h.child_changed hj
  · exact fun i hi => hframe.agree_sibling hi
  · intro i _ _
    rw [hscan]
  · exact fun b _ => Iff.rfl
  · rw [hscan]
    exact h.2.1 j hj
  · rw [hscan]
    exact hchild
  · rw [hscan]
    exact h.2.2.2

/-! ## Aligned runs -/

theorem Ico_subset_of_aligned (hpq : p ∣ q) (hb : p ∣ b) (hc : q ∣ c) (hx : x ∈ Ico b (b + p))
    (hx' : x ∈ Ico c (c + q)) : Ico b (b + p) ⊆ Ico c (c + q) := by
  obtain ⟨m, rfl⟩ := hpq
  obtain ⟨t, rfl⟩ := hb
  obtain ⟨u, rfl⟩ := hc
  rw [mem_Ico] at hx hx'
  have hlow : m * u ≤ t := by
    by_contra hlt
    have hmul : p * (t + 1) ≤ p * (m * u) := Nat.mul_le_mul_left p (not_le.mp hlt)
    have hassoc : p * m * u = p * (m * u) := Nat.mul_assoc p m u
    rw [Nat.mul_succ] at hmul
    omega
  have hhigh : t + 1 ≤ m * u + m := by
    by_contra hlt
    have hmul : p * (m * u + m) ≤ p * t := Nat.mul_le_mul_left p (by omega)
    have hdist : p * (m * u + m) = p * m * u + p * m := by ring
    omega
  intro y hy
  rw [mem_Ico] at hy ⊢
  have hlow' : p * (m * u) ≤ p * t := Nat.mul_le_mul_left p hlow
  have hhigh' : p * (t + 1) ≤ p * (m * u + m) := Nat.mul_le_mul_left p hhigh
  have hassoc : p * (m * u) = p * m * u := (Nat.mul_assoc p m u).symm
  have hdist : p * (m * u + m) = p * m * u + p * m := by ring
  rw [Nat.mul_succ] at hhigh'
  omega

theorem radix_eq_pow (level : ℕ) : radix level = 2 ^ (4 * level + 5) := by
  simp only [radix, Kern.blistBmapRadix, Kern.blistMetaRadix]
  have h16 : (16 : ℕ) = 2 ^ 4 := by norm_num
  rw [h16, ← pow_mul, pow_add]
  ring

theorem childRange_eq (level blk j : ℕ) :
    childRange level blk j = Ico (blk + j * radix level) (blk + j * radix level + radix level) :=
  rfl

theorem two_pow_ne_terminator (n : ℕ) : 2 ^ n ≠ alistTerminator := by
  have hterm : alistTerminator = 2 ^ 32 - 1 := rfl
  cases n with
  | zero => decide
  | succ n =>
    rw [pow_succ]
    omega

theorem radix_ne_terminator (level : ℕ) : radix level ≠ alistTerminator := by
  rw [radix_eq_pow]
  exact two_pow_ne_terminator _

theorem radix_dvd_child (h : radix (level + 1) ∣ blk) (j : ℕ) :
    radix level ∣ blk + j * radix level := by
  apply Nat.dvd_add
  · exact (Dvd.intro_left 16 (radix_succ level).symm).trans h
  · exact Dvd.intro_left j rfl

theorem exists_childRange (hb : b ∈ Ico blk (blk + radix (level + 1))) :
    ∃ j < 16, b ∈ childRange level blk j := by
  rw [mem_Ico, radix_succ] at hb
  have hpos := radix_pos level
  refine ⟨(b - blk) / radix level, ?_, ?_⟩
  · rw [Nat.div_lt_iff_lt_mul hpos]
    omega
  · rw [mem_childRange]
    have hmod := Nat.div_add_mod (b - blk) (radix level)
    have hlt := Nat.mod_lt (b - blk) hpos
    have hcomm : radix level * ((b - blk) / radix level) =
        (b - blk) / radix level * radix level := Nat.mul_comm _ _
    omega

theorem run_subset_child (halign : radix (level + 1) ∣ blk) (hk : 2 ^ k ≤ radix level)
    (hb : 2 ^ k ∣ b) (hx : x ∈ Ico b (b + 2 ^ k)) (hj : x ∈ childRange level blk j) :
    Ico b (b + 2 ^ k) ⊆ childRange level blk j := by
  have hdvd : 2 ^ k ∣ radix level := by
    rw [radix_eq_pow] at hk ⊢
    exact pow_dvd_pow 2 ((Nat.pow_le_pow_iff_right (by norm_num)).mp hk)
  exact Ico_subset_of_aligned hdvd hb (radix_dvd_child halign j) hx hj

theorem child_subset_run (halign : radix (level + 1) ∣ blk) (hk : radix level ≤ 2 ^ k)
    (hb : 2 ^ k ∣ b) (hx : x ∈ Ico b (b + 2 ^ k)) (hj : x ∈ childRange level blk j) :
    childRange level blk j ⊆ Ico b (b + 2 ^ k) := by
  have hdvd : radix level ∣ 2 ^ k := by
    rw [radix_eq_pow] at hk ⊢
    exact pow_dvd_pow 2 ((Nat.pow_le_pow_iff_right (by norm_num)).mp hk)
  exact Ico_subset_of_aligned hdvd (radix_dvd_child halign j) hb hj hx

theorem HintCovers.mono (h : HintCovers hint free) (hle : hint ≤ hint') (hsub : free' ⊆ free) :
    HintCovers hint' free' :=
  fun k b hb hrun => (h k b hb (hrun.trans hsub)).trans hle

theorem hintCovers_empty (hint : ℕ) : HintCovers hint ∅ := by
  intro k b _ hrun
  have hmem : b ∈ Ico b (b + 2 ^ k) := by
    rw [mem_Ico]
    omega
  exact absurd (hrun hmem) (notMem_empty b)

theorem hintCovers_of_subset (hsub : free ⊆ Ico blk (blk + size)) (hle : size ≤ hint) :
    HintCovers hint free := by
  intro k b _ hrun
  have hcard := card_le_card (hrun.trans hsub)
  rw [Nat.card_Ico, Nat.card_Ico] at hcard
  omega

/-! ## Nodes that are all-allocated or all-free -/

theorem getLsbD_ones (hi : i < 32) : (BitVec.allOnes 32).getLsbD i = true := by
  rw [getLsbD_allOnes]
  exact decide_eq_true hi

theorem Sound.eq_empty_iff (h : Sound hinted root level scan blk free) :
    (root scan).bmBitmap = 0 ↔ free = ∅ := by
  cases level with
  | zero => rw [h.1, image_eq_empty, bits_eq_empty]
  | succ level =>
    obtain ⟨hsub, hfields, -, -⟩ := h
    constructor
    · intro hzero
      rw [eq_empty_iff_forall_notMem]
      intro b hb
      obtain ⟨j, hj, hmem⟩ := exists_childRange (hsub hb)
      have hempty := ((hfields j hj).empty_iff hj).mp (by rw [hzero]; simp)
      have hin := mem_inter.mpr ⟨hb, hmem⟩
      rw [hempty] at hin
      exact absurd hin (notMem_empty b)
    · intro hempty
      apply eq_of_getLsbD_eq
      intro i hi
      have hfield := hfields (i / 2) (by omega)
      have hnone := (hfield.empty_iff (by omega)).mpr (by simp [hempty])
      rw [and_fieldMask_eq_zero (by omega)] at hnone
      rcases Nat.mod_two_eq_zero_or_one i with hmod | hmod
      · have heq : i = 2 * (i / 2) := by omega
        rw [heq, hnone.1]
        simp
      · have heq : i = 2 * (i / 2) + 1 := by omega
        rw [heq, hnone.2]
        simp

theorem Sound.eq_full_iff (h : Sound hinted root level scan blk free) :
    (root scan).bmBitmap = BitVec.allOnes 32 ↔ Ico blk (blk + radix level) ⊆ free := by
  cases level with
  | zero =>
    have hradix : radix 0 = 32 := rfl
    rw [h.1]
    constructor
    · intro hones b hb
      rw [hones, bits_allOnes, mem_image]
      rw [mem_Ico] at hb
      exact ⟨b - blk, mem_range.mpr (by omega), by omega⟩
    · intro hsub
      apply eq_of_getLsbD_eq
      intro i hi
      have hmem := hsub (mem_Ico.mpr ⟨Nat.le_add_right blk i, by omega⟩)
      rw [mem_image] at hmem
      obtain ⟨i', hi', heq⟩ := hmem
      have hsame : i' = i := by omega
      rw [hsame, mem_bits] at hi'
      rw [hi', getLsbD_ones hi]
  | succ level =>
    obtain ⟨-, hfields, -, -⟩ := h
    constructor
    · intro hones b hb
      obtain ⟨j, hj, hmem⟩ := exists_childRange hb
      apply (hfields j hj).full.mp _ hmem
      rw [hones]
      exact getLsbD_ones (by omega)
    · intro hsub
      apply eq_of_getLsbD_eq
      intro i hi
      have hj : i / 2 < 16 := by omega
      have hchild : childRange level blk (i / 2) ⊆ free := (childRange_subset hj).trans hsub
      have hboth := and_fieldMask_eq_self hj |>.mp (((hfields (i / 2) hj).full_iff hj).mpr hchild)
      rcases Nat.mod_two_eq_zero_or_one i with hmod | hmod
      · have heq : i = 2 * (i / 2) := by omega
        rw [heq, hboth.1, getLsbD_ones (by omega)]
      · have heq : i = 2 * (i / 2) + 1 := by omega
        rw [heq, hboth.2, getLsbD_ones (by omega)]

theorem sound_full (hbitmap : (root scan).bmBitmap = BitVec.allOnes 32)
    (hhint : (root scan).bmBighint = radix level) :
    Sound hinted root level scan blk (Ico blk (blk + radix level)) := by
  have hcovers : HintCovers (root scan).bmBighint (Ico blk (blk + radix level)) :=
    hintCovers_of_subset (Finset.Subset.refl _) hhint.ge
  cases level with
  | zero =>
    refine ⟨?_, fun _ => hcovers⟩
    have hradix : radix 0 = 32 := rfl
    rw [hbitmap, bits_allOnes]
    ext b
    rw [mem_Ico, mem_image]
    constructor
    · intro hb
      exact ⟨b - blk, mem_range.mpr (by omega), by omega⟩
    · rintro ⟨i, hi, rfl⟩
      rw [mem_range] at hi
      omega
  | succ level =>
    have hones : ∀ i < 32, (root scan).bmBitmap.getLsbD i = true := by
      intro i hi
      rw [hbitmap, getLsbD_ones hi]
    refine ⟨Finset.Subset.refl _, ?_, ?_, fun _ => hcovers⟩
    · intro j hj
      constructor
      · rw [hones _ (by omega)]
        exact ⟨fun _ => childRange_subset hj, fun _ => rfl⟩
      · rw [hones _ (by omega)]
        refine ⟨fun _ => ?_, fun _ => rfl⟩
        rw [inter_eq_right.mpr (childRange_subset hj)]
        exact childRange_nonempty level blk j
    · intro j hj hmixed
      have hhigh := hmixed.2
      rw [hones _ (by omega)] at hhigh
      cases hhigh

theorem sound_empty (blk : ℕ) (hbitmap : (root scan).bmBitmap = 0) :
    Sound hinted root level scan blk ∅ := by
  cases level with
  | zero =>
    refine ⟨?_, fun _ => hintCovers_empty _⟩
    rw [hbitmap, bits_eq_empty.mpr rfl, image_empty]
  | succ level =>
    refine ⟨empty_subset _, ?_, ?_, fun _ => hintCovers_empty _⟩
    · intro j _
      rw [hbitmap]
      constructor
      · simp only [ofNat_eq_ofNat, getLsbD_zero, Bool.false_eq_true, false_iff]
        intro hsub
        obtain ⟨b, hb⟩ := childRange_nonempty level blk j
        exact absurd (hsub hb) (notMem_empty _)
      · simp
    · intro j _ hmixed
      have hlow := hmixed.1
      rw [hbitmap] at hlow
      simp at hlow

end DragonFly.Alst
