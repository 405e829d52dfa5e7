import DragonFly.AlistRefinement

/-!
# The last free blocks of an alist

`alist_free_info` descends from the root into the last child that is not
all-allocated, until a child is all-free or a leaf is reached.  It finds free
blocks because a field is 01 only if a part of the child is free.
-/

namespace DragonFly.Alst

open BitRange Finset BitVec
open Kern (radix child childRange mem_childRange radix_pos)

/-- The loops `for (i = n - 1; i != ALIST_BLOCK_NONE; --i)`. -/
def lastBelow (found : ℕ → Bool) : ℕ → Option ℕ
  | 0 => none
  | i + 1 => if found i then some i else lastBelow found i

def childField (bitmap : BitVec 32) (i : ℕ) : BitVec 32 :=
  (bitmap >>> (i * 2)) &&& 3#32

/-- The values of `*startp` and `*countp` that the rest of the descent adds up to. -/
def alstFreeInfo (root : Memory) : ℕ → ℕ → ℕ → ℕ × ℕ
  | 0, scan, startp =>
    match lastBelow (fun i => (root scan).bmBitmap &&& (1#32 <<< i) ≠ 0) alistBmapRadix with
    | none => (startp, 0)
    | some i => (startp + i, 1)
  | level + 1, scan, startp =>
    match lastBelow (fun i => childField (root scan).bmBitmap i ≠ 0) alistMetaRadix with
    | none => (startp, 0)
    | some i =>
      if childField (root scan).bmBitmap i = 1 then
        alstFreeInfo root level (child level scan i) (startp + i * radix level)
      else if childField (root scan).bmBitmap i = 2 then (startp, 0)
      else (startp + i * radix level, radix level)

def alistFreeInfo (bl : Alist) : ℤ × ℕ × ℕ :=
  (bl.blFree, alstFreeInfo bl.blRoot bl.level 0 0)

theorem lastBelow_spec (found : ℕ → Bool) (n : ℕ) :
    lastBelow found n = none ∧ (∀ k < n, found k = false) ∨
    ∃ i < n, lastBelow found n = some i ∧ found i = true ∧ ∀ k < n, i < k → found k = false := by
  induction n with
  | zero => exact .inl ⟨rfl, fun k hk => absurd hk (Nat.not_lt_zero k)⟩
  | succ n ih =>
    by_cases hn : found n = true
    · exact .inr ⟨n, by omega, if_pos hn, hn, fun k hk hlt => absurd hk (by omega)⟩
    · have hstep : lastBelow found (n + 1) = lastBelow found n := if_neg hn
      have hrest : ∀ k < n + 1, (k < n → found k = false) → found k = false := by
        intro k hk hbelow
        rcases Nat.lt_succ_iff_lt_or_eq.mp hk with hlt | rfl
        · exact hbelow hlt
        · simpa using hn
      rw [hstep]
      rcases ih with ⟨hnone, hbelow⟩ | ⟨i, hi, hsome, hfound, hbelow⟩
      · exact .inl ⟨hnone, fun k hk => hrest k hk (hbelow k)⟩
      · exact .inr ⟨i, by omega, hsome, hfound,
          fun k hk hik => hrest k hk fun hlt => hbelow k hlt hik⟩

variable {bitmap : BitVec 32} {root : Memory} {hinted : Prop} {free : Finset ℕ}
  {level scan blk i j b blocks : ℕ} {bl : Alist}

theorem childField_toNat (bitmap : BitVec 32) (i : ℕ) :
    (childField bitmap i).toNat =
      (bitmap.getLsbD (2 * i)).toNat + 2 * (bitmap.getLsbD (2 * i + 1)).toNat := by
  have hmod : (childField bitmap i).toNat = bitmap.toNat / 2 ^ (2 * i) % 4 := by
    rw [childField, toNat_and, toNat_ushiftRight, Nat.shiftRight_eq_div_pow, Nat.mul_comm]
    exact Nat.and_two_pow_sub_one_eq_mod _ 2
  rw [hmod, ← testBit_toNat, ← testBit_toNat, Nat.toNat_testBit, Nat.toNat_testBit, pow_succ,
    ← Nat.div_div_eq_div_mul]
  omega

/-- The unknown state 10 does not occur. -/
theorem Field.childField_cases (h : Field bitmap j (childRange level blk j) free) :
    childField bitmap j = 0 ∧ free ∩ childRange level blk j = ∅ ∨
    childField bitmap j = 1 ∧ Mixed bitmap j ∧ (free ∩ childRange level blk j).Nonempty ∨
    childField bitmap j = 3 ∧ childRange level blk j ⊆ free := by
  have hvalue := childField_toNat bitmap j
  cases hhigh : bitmap.getLsbD (2 * j + 1) with
  | true =>
    rw [h.low_of_high hhigh, hhigh] at hvalue
    exact .inr (.inr ⟨BitVec.eq_of_toNat_eq hvalue, h.full.mp hhigh⟩)
  | false =>
    cases hlow : bitmap.getLsbD (2 * j) with
    | true =>
      rw [hlow, hhigh] at hvalue
      exact .inr (.inl ⟨BitVec.eq_of_toNat_eq hvalue, ⟨hlow, hhigh⟩, h.part.mp hlow⟩)
    | false =>
      rw [hlow, hhigh] at hvalue
      refine .inl ⟨BitVec.eq_of_toNat_eq hvalue, ?_⟩
      rw [← not_nonempty_iff_eq_empty, ← h.part, hlow]
      exact Bool.false_ne_true

/-- A run of free blocks behind which no block is free. -/
structure TrailingRun (free : Finset ℕ) (info : ℕ × ℕ) : Prop where
  pos : 0 < info.2
  run : Ico info.1 (info.1 + info.2) ⊆ free
  last : ∀ b ∈ free, b < info.1 + info.2

theorem and_bit_ne_zero (hi : i < 32) : bitmap &&& (1#32 <<< i) ≠ 0 ↔ bitmap.getLsbD i = true := by
  have htwo : BitVec.twoPow 32 i ≠ 0#32 := by
    intro hzero
    have hbit := congrArg (BitVec.getLsbD · i) hzero
    simp [hi] at hbit
  change bitmap &&& BitVec.twoPow 32 i ≠ 0#32 ↔ _
  rw [and_twoPow]
  split_ifs with hbit
  · simp [hbit, htwo]
  · simp [hbit]

theorem Sound.leaf_trailingRun (h : Sound hinted root 0 scan blk free) (hfree : free.Nonempty) :
    TrailingRun free (alstFreeInfo root 0 scan blk) := by
  -- the offset of a free block is tested and found
  have hbit : ∀ b ∈ free, blk ≤ b ∧ b - blk < 32 ∧
      decide ((root scan).bmBitmap &&& (1#32 <<< (b - blk)) ≠ 0) = true := by
    intro b hb
    obtain ⟨hle, hmem⟩ := h.mem_leaf.mp hb
    have hlt := lt_of_getLsbD (mem_bits.mp hmem)
    exact ⟨hle, hlt, decide_eq_true ((and_bit_ne_zero hlt).mpr (mem_bits.mp hmem))⟩
  unfold alstFreeInfo
  rcases lastBelow_spec (fun i => (root scan).bmBitmap &&& (1#32 <<< i) ≠ 0) alistBmapRadix with
    ⟨-, hnone⟩ | ⟨i, hi, hsome, hfound, hlast⟩
  · obtain ⟨b, hb⟩ := hfree
    obtain ⟨-, hlt, htrue⟩ := hbit b hb
    rw [hnone _ hlt] at htrue
    cases htrue
  · rw [hsome]
    refine ⟨Nat.one_pos, ?_, ?_⟩
    · intro b hb
      obtain rfl : b = blk + i := by
        rw [mem_Ico] at hb
        simp only at hb
        omega
      rw [h.mem_leaf, Nat.add_sub_cancel_left, mem_bits]
      exact ⟨Nat.le_add_right _ _, (and_bit_ne_zero hi).mp (of_decide_eq_true hfound)⟩
    · intro b hb
      obtain ⟨hle, hlt, htrue⟩ := hbit b hb
      by_contra hbeyond
      rw [hlast _ hlt (by simp only at hbeyond; omega)] at htrue
      cases htrue

theorem Sound.trailingRun (h : Sound hinted root level scan blk free) (hfree : free.Nonempty) :
    TrailingRun free (alstFreeInfo root level scan blk) := by
  induction level generalizing scan blk free with
  | zero => exact h.leaf_trailingRun hfree
  | succ level ih =>
    obtain ⟨hsub, hfields, hchildren, -⟩ := h
    have hempty : ∀ k < 16, decide (childField (root scan).bmBitmap k ≠ 0) = false →
        free ∩ childRange level blk k = ∅ := by
      intro k hk hzero
      rcases (hfields k hk).childField_cases with h | ⟨h, -⟩ | ⟨h, -⟩
      · exact h.2
      · simp [h] at hzero
      · simp [h] at hzero
    unfold alstFreeInfo
    rcases lastBelow_spec (fun i => childField (root scan).bmBitmap i ≠ 0) alistMetaRadix with
      ⟨-, hnone⟩ | ⟨i, hi, hsome, hfound, hlast⟩
    · obtain ⟨b, hb⟩ := hfree
      obtain ⟨k, hk, hmem⟩ := exists_childRange (hsub hb)
      exact absurd (mem_inter.mpr ⟨hb, hmem⟩) (by rw [hempty k hk (hnone k hk)]; simp)
    · -- a free block lies in child `i` or before it
      have hbefore : ∀ b ∈ free, b ∈ childRange level blk i ∨ b < blk + i * radix level := by
        intro b hb
        obtain ⟨k, hk, hmem⟩ := exists_childRange (hsub hb)
        have hrange := mem_childRange.mp hmem
        rcases Nat.lt_trichotomy k i with hlt | rfl | hgt
        · have hmul : (k + 1) * radix level ≤ i * radix level := Nat.mul_le_mul_right _ hlt
          rw [Nat.succ_mul] at hmul
          exact .inr (by omega)
        · exact .inl hmem
        · exact absurd (mem_inter.mpr ⟨hb, hmem⟩) (by rw [hempty k hk (hlast k hk hgt)]; simp)
      rw [hsome]
      simp only
      rcases (hfields i hi).childField_cases with ⟨h, -⟩ | ⟨h, hmixed, hsome⟩ | ⟨h, hfull⟩
      · simp [h] at hfound
      · rw [if_pos h]
        have hrun := ih (hchildren i hi hmixed) hsome
        refine ⟨hrun.pos, hrun.run.trans inter_subset_left, ?_⟩
        intro b hb
        rcases hbefore b hb with hmem | hlt
        · exact hrun.last b (mem_inter.mpr ⟨hb, hmem⟩)
        · have hpos := hrun.pos
          have hfirst := hrun.run (mem_Ico.mpr ⟨le_rfl, by omega⟩)
          have hle := (mem_childRange.mp (mem_inter.mp hfirst).2).1
          omega
      · rw [h]
        refine ⟨radix_pos level, hfull, ?_⟩
        intro b hb
        rcases hbefore b hb with hmem | hlt
        · exact (mem_childRange.mp hmem).2
        · exact hlt.trans_le (Nat.le_add_right _ _)

theorem lastBelow_false (n : ℕ) : lastBelow (fun _ => false) n = none := by
  induction n with
  | zero => rfl
  | succ n ih => exact ih

theorem Sound.no_run (h : Sound hinted root level scan blk ∅) :
    (alstFreeInfo root level scan blk).2 = 0 := by
  have hzero := h.eq_empty_iff.mpr rfl
  cases level <;> simp [alstFreeInfo, hzero, childField, lastBelow_false]

/-- After allocations of at most `2 ^ 31` blocks at a time and frees of non-empty
ranges, `alist_free_info` reports the number of free blocks and a run of them
behind which no block is free. -/
theorem Reached.freeInfo_trailing (h : Reached (fun _ _ _ => True) blocks bl free) :
    (alistFreeInfo bl).1 = free.card ∧ (0 < (alistFreeInfo bl).2.2 ↔ free.Nonempty) ∧
      (free.Nonempty →
        Ico (alistFreeInfo bl).2.1 ((alistFreeInfo bl).2.1 + (alistFreeInfo bl).2.2) ⊆ free ∧
        ∀ b, (alistFreeInfo bl).2.1 + (alistFreeInfo bl).2.2 ≤ b → b ∉ free) := by
  obtain ⟨-, hrep⟩ := h.represents (False.elim : False → _)
  refine ⟨hrep.blFree, ⟨?_, fun hfree => (hrep.sound.trailingRun hfree).pos⟩, ?_⟩
  · intro hpos
    by_contra hnone
    rw [not_nonempty_iff_eq_empty] at hnone
    have hzero := (hnone ▸ hrep.sound).no_run
    exact hpos.ne' hzero
  · intro hfree
    have hrun := hrep.sound.trailingRun hfree
    exact ⟨hrun.run, fun b hb hmem => absurd (hrun.last b hmem) (not_lt.mpr hb)⟩

theorem Reached.freeInfo_second_leaf :
    ∃ bl, Reached (fun _ _ _ => True) 64 bl (∅ ∪ Ico 30 (30 + 10)) ∧
      (alistFreeInfo bl).1 = (∅ ∪ Ico 30 (30 + 10) : Finset ℕ).card ∧
      (alistFreeInfo bl).2 = (39, 1) := by
  obtain ⟨bl, bl', hcreate, hfree⟩ : ∃ bl bl', alistCreate blank 64 = some bl ∧
      alistFree bl 30 10 = some bl' ∧ (alistFreeInfo bl').2 = (39, 1) := ⟨_, _, rfl, rfl, by decide⟩
  obtain ⟨nrecords, hinit⟩ := alistInit_of_create hcreate
  have hreached : Reached (fun _ _ _ => True) 64 bl' (∅ ∪ Ico 30 (30 + 10)) :=
    .free (.create hinit) (by norm_num) (by norm_num) (disjoint_empty_right _) hfree.1
  exact ⟨bl', hreached, (Reached.freeInfo_trailing hreached).1, hfree.2⟩

/-- A leaf without free blocks that an empty range has marked hides the free
blocks before it. -/
theorem empty_free_hides_run :
    ∃ bl bl1 bl2, alistCreate blank 64 = some bl ∧ alistFree bl 0 8 = some bl1 ∧
      alistFree bl1 40 0 = some bl2 ∧ (alistFreeInfo bl2).2.2 = 0 ∧
      (∅ ∪ Ico 0 (0 + 8) ∪ Ico 40 (40 + 0) : Finset ℕ).Nonempty := by
  exact ⟨_, _, _, rfl, rfl, rfl, by decide, 0, by decide⟩

end DragonFly.Alst
