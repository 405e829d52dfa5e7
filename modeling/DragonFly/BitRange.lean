import Mathlib

/-!
# Ranges of bits in a machine word

Masks made of shifted words of ones, the number of bits set in a word, and the
loop that counts them by clearing the lowest one.
-/

namespace BitRange

open BitVec Finset

variable {w : ℕ}

def rangeMask (w n count : ℕ) : BitVec w :=
  (BitVec.allOnes w <<< n) &&& (BitVec.allOnes w >>> (w - count - n))

theorem getLsbD_rangeMask (h : n + count ≤ w) (i : ℕ) :
    (rangeMask w n count).getLsbD i = decide (n ≤ i ∧ i < n + count) := by
  simp only [rangeMask, getLsbD_and, getLsbD_shiftLeft, getLsbD_ushiftRight, getLsbD_allOnes]
  by_cases h1 : n ≤ i ∧ i < n + count
  · obtain ⟨h2, h3⟩ := h1
    have h4 : i < w := by omega
    have h5 : i - n < w := by omega
    have h6 : w - count - n + i < w := by omega
    simp [h2, h3, h4, h5, h6]
  · by_cases h2 : n ≤ i
    · have h3 : ¬w - count - n + i < w := by omega
      simp [h1, h3]
    · have h3 : i < n := by omega
      simp [h1, h3]

def bits (word : BitVec w) : Finset ℕ :=
  (Finset.range w).filter fun i => word.getLsbD i = true

theorem mem_bits : i ∈ bits word ↔ word.getLsbD i = true := by
  simp only [bits, mem_filter, mem_range, and_iff_right_iff_imp]
  intro h
  by_contra hge
  rw [getLsbD_of_ge word i (not_lt.mp hge)] at h
  exact Bool.false_ne_true h

theorem bits_eq_empty : bits word = ∅ ↔ word = 0 := by
  constructor
  · intro h
    apply eq_of_getLsbD_eq
    intro i _
    by_contra hbit
    have hset : word.getLsbD i = true := by
      cases hi : word.getLsbD i
      · simp [hi] at hbit
      · rfl
    have hmem := mem_bits.mpr hset
    rw [h] at hmem
    exact notMem_empty i hmem
  · rintro rfl
    ext i
    simp [mem_bits]

theorem bits_and (a b : BitVec w) : bits (a &&& b) = bits a ∩ bits b := by
  ext i
  simp [mem_bits]

theorem bits_or (a b : BitVec w) : bits (a ||| b) = bits a ∪ bits b := by
  ext i
  simp [mem_bits]

theorem bits_and_not (a b : BitVec w) : bits (a &&& ~~~b) = bits a \ bits b := by
  ext i
  simp only [mem_bits, getLsbD_and, getLsbD_not, mem_sdiff, Bool.and_eq_true, decide_eq_true_eq,
    Bool.not_eq_true']
  constructor
  · rintro ⟨ha, _, hb⟩
    exact ⟨ha, by simp [hb]⟩
  · rintro ⟨ha, hb⟩
    have hlt : i < w := lt_of_getLsbD ha
    exact ⟨ha, hlt, by simpa using hb⟩

theorem bits_rangeMask (h : n + count ≤ w) : bits (rangeMask w n count) = Ico n (n + count) := by
  ext i
  rw [mem_bits, getLsbD_rangeMask h, decide_eq_true_eq, mem_Ico]

theorem bits_allOnes : bits (BitVec.allOnes w) = Finset.range w := by
  ext i
  simp [mem_bits]

/-! ## Counting set bits -/

/-- Clear the lowest set bit until none is left; `fuel` bounds the loop. -/
def countBits : ℕ → BitVec w → ℕ
  | 0, _ => 0
  | fuel + 1, word =>
    if word = 0 then 0
    else countBits fuel (word &&& (word - 1)) + 1

/-- The number of bits below `w` set in a number. -/
private def weight : ℕ → ℕ → ℕ
  | 0, _ => 0
  | w + 1, n => n % 2 + weight w (n / 2)

private theorem weight_eq_card (w n : ℕ) :
    weight w n = ((Finset.range w).filter fun i => n.testBit i).card := by
  induction w generalizing n with
  | zero => rfl
  | succ w ih =>
    have hsplit :
        (Finset.range (w + 1)).filter (fun i => n.testBit i = true) =
          (if n.testBit 0 then {0} else ∅) ∪
            ((Finset.range w).filter fun i => (n / 2).testBit i = true).map
                ⟨Nat.succ, Nat.succ_injective⟩ := by
      ext i
      cases i with
      | zero => by_cases h : n.testBit 0 <;> simp [h]
      | succ i =>
        by_cases h : n.testBit 0 <;>
          simp [h, Nat.testBit_succ]
    have hdisjoint : Disjoint (if n.testBit 0 then ({0} : Finset ℕ) else ∅)
          (((Finset.range w).filter fun i => (n / 2).testBit i = true).map
              ⟨Nat.succ, Nat.succ_injective⟩) := by
      rw [disjoint_left]
      intro i hi hmap
      split_ifs at hi
      · simp at hi
        simp [hi] at hmap
      · simp at hi
    rw [weight, ih, hsplit, card_union_of_disjoint hdisjoint, card_map]
    congr 1
    rw [Nat.testBit_zero]
    have hmod := Nat.mod_two_eq_zero_or_one n
    rcases hmod with h | h <;> simp [h]

private theorem weight_clear_lowest (w n : ℕ) (hpos : 0 < n) (hlt : n < 2 ^ w) :
    weight w (n &&& (n - 1)) + 1 = weight w n := by
  induction w generalizing n with
  | zero => omega
  | succ w ih =>
    have hmod : (n &&& (n - 1)) % 2 = 0 := by
      have h := Nat.testBit_and n (n - 1) 0
      simp only [Nat.testBit_zero] at h
      have h' : (decide (n % 2 = 1) && decide ((n - 1) % 2 = 1)) = false := by
        rcases Nat.mod_two_eq_zero_or_one n with h1 | h1
        · simp [h1]
        · have h2 : (n - 1) % 2 = 0 := by omega
          simp [h2]
      rw [h'] at h
      have h3 := Nat.mod_two_eq_zero_or_one (n &&& (n - 1))
      simp only [decide_eq_false_iff_not] at h
      omega
    have hdiv : (n &&& (n - 1)) / 2 = n / 2 &&& (n - 1) / 2 := Nat.and_div_two
    rw [weight, weight, hmod, hdiv]
    rcases Nat.mod_two_eq_zero_or_one n with h1 | h1
    · have h2 : (n - 1) / 2 = n / 2 - 1 := by omega
      have h3 := ih (n / 2) (by omega) (by omega)
      rw [h2]
      omega
    · have h2 : (n - 1) / 2 = n / 2 := by omega
      rw [h2, Nat.and_self]
      omega

theorem card_bits_clear_lowest {word : BitVec w} (h : word ≠ 0) :
    (bits (word &&& (word - 1))).card + 1 = (bits word).card := by
  have hcard (word : BitVec w) : (bits word).card = weight w word.toNat := by
    rw [weight_eq_card]
    rfl
  have hpos : 0 < word.toNat := by
    rw [Nat.pos_iff_ne_zero]
    intro hzero
    exact h (eq_of_toNat_eq (by simpa using hzero))
  have hone : (1 : BitVec w).toNat = 1 := by
    have hlt : 1 < 2 ^ w := lt_of_le_of_lt hpos word.isLt
    exact Nat.mod_eq_of_lt hlt
  have hsub : (word &&& (word - 1)).toNat = word.toNat &&& (word.toNat - 1) := by
    have hle : (1 : BitVec w) ≤ word := by
      rw [le_def, hone]
      omega
    rw [toNat_and, toNat_sub_of_le hle, hone]
  rw [hcard, hcard, hsub]
  exact weight_clear_lowest w word.toNat hpos word.isLt

theorem countBits_eq_card (hfuel : (bits word).card ≤ fuel) :
    countBits fuel word = (bits word).card := by
  induction fuel generalizing word with
  | zero =>
    rw [Nat.le_zero.mp hfuel]
    rfl
  | succ fuel ih =>
    by_cases hzero : word = 0
    · simp [countBits, hzero, bits_eq_empty.mpr]
    · have hcard := card_bits_clear_lowest hzero
      rw [countBits, if_neg hzero, ih (by omega)]
      omega

theorem card_bits_le (word : BitVec w) : (bits word).card ≤ w := by
  have h := card_filter_le (Finset.range w) fun i => word.getLsbD i = true
  rwa [card_range] at h

end BitRange
