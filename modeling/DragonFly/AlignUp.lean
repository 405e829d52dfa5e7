import Mathlib

/-!
# Rounding up to a power of two

The idiom `(x + m) & ~m` on machine words, for a mask `m = 2 ^ k - 1`.  It is the next
multiple of `2 ^ k` unless the addition wraps, and zero when it does.
-/

namespace DragonFly

open BitVec

variable {w : ℕ}

def alignUp (x mask : BitVec w) : BitVec w :=
  (x + mask) &&& ~~~mask

theorem and_not_mask (x mask : BitVec w) (hmask : mask.toNat = 2 ^ k - 1) :
    (x &&& ~~~mask).toNat = x.toNat / 2 ^ k * 2 ^ k := by
  apply Nat.eq_of_testBit_eq
  intro i
  have hbit : mask.getLsbD i = decide (i < k) := by
    rw [BitVec.getLsbD, hmask, Nat.testBit_two_pow_sub_one]
  rw [Nat.testBit_mul_two_pow, Nat.testBit_div_two_pow, ← BitVec.getLsbD, getLsbD_and,
    getLsbD_not, hbit]
  by_cases hik : k ≤ i
  · have hadd : i - k + k = i := Nat.sub_add_cancel hik
    rw [hadd]
    by_cases hiw : i < w
    · simp [hik, hiw, BitVec.getLsbD]
    · have hx : x.toNat.testBit i = false := getLsbD_of_ge x i (Nat.le_of_not_lt hiw)
      simp [hik, hiw, hx]
  · simp [hik, Nat.lt_of_not_le hik]

variable {x mask : BitVec w}

theorem alignUp_toNat (hmask : mask.toNat = 2 ^ k - 1) (hwrap : x.toNat + 2 ^ k ≤ 2 ^ w) :
    (alignUp x mask).toNat = (x.toNat + (2 ^ k - 1)) / 2 ^ k * 2 ^ k := by
  rw [alignUp, and_not_mask _ mask hmask, toNat_add, hmask, Nat.mod_eq_of_lt (by omega)]

theorem le_alignUp (hmask : mask.toNat = 2 ^ k - 1) (hwrap : x.toNat + 2 ^ k ≤ 2 ^ w) :
    x.toNat ≤ (alignUp x mask).toNat := by
  rw [alignUp_toNat hmask hwrap]
  have hdiv := Nat.div_add_mod (x.toNat + (2 ^ k - 1)) (2 ^ k)
  rw [Nat.mul_comm] at hdiv
  omega

theorem alignUp_dvd (x : BitVec w) (hmask : mask.toNat = 2 ^ k - 1) :
    2 ^ k ∣ (alignUp x mask).toNat := by
  rw [alignUp, and_not_mask _ mask hmask]
  exact Nat.dvd_mul_left _ _

theorem alignUp_eq_zero (hmask : mask.toNat = 2 ^ k - 1) (hwrap : 2 ^ w < x.toNat + 2 ^ k) :
    alignUp x mask = 0 := by
  apply eq_of_toNat_eq
  have hsum : (x.toNat + (2 ^ k - 1)) % 2 ^ w = x.toNat + (2 ^ k - 1) - 2 ^ w := by
    rw [Nat.mod_eq_sub_mod (by omega), Nat.mod_eq_of_lt (by omega)]
  have hzero : (x.toNat + (2 ^ k - 1) - 2 ^ w) / 2 ^ k = 0 := Nat.div_eq_of_lt (by omega)
  rw [alignUp, and_not_mask _ mask hmask, toNat_add, hmask, hsum, hzero]
  simp

theorem exists_two_pow_of_or (hpos : 0 < n) (h : (n ||| (n - 1)) + 1 = 2 * n) : ∃ k, n = 2 ^ k := by
  induction n using Nat.strong_induction_on with
  | _ n ih =>
    obtain ⟨b, rfl | rfl⟩ := Nat.even_or_odd' n
    · have hb : 0 < b := by omega
      have hor : 2 * b ||| (2 * b - 1) = 2 * (b ||| (b - 1)) + 1 := by
        have hpred : 2 * b - 1 = 2 * (b - 1) + 1 := by omega
        rw [hpred]
        apply Nat.eq_of_testBit_eq
        intro i
        cases i with
        | zero => simp
        | succ i =>
          have hhalf : (2 * (b - 1) + 1) / 2 = b - 1 := by omega
          have hhalf' : (2 * (b ||| (b - 1)) + 1) / 2 = b ||| (b - 1) := by omega
          rw [Nat.testBit_or]
          simp only [Nat.testBit_succ, hhalf, hhalf', Nat.mul_div_cancel_left b Nat.two_pos]
          rw [Nat.testBit_or]
      obtain ⟨k, hk⟩ := ih b (by omega) hb (by omega)
      exact ⟨k + 1, by rw [hk]; ring⟩
    · have hor : 2 * b + 1 ||| (2 * b + 1 - 1) = 2 * b + 1 := by
        apply Nat.eq_of_testBit_eq
        intro i
        cases i with
        | zero => simp
        | succ i =>
          have hhalf : (2 * b + 1) / 2 = b := by omega
          have hhalf' : (2 * b + 1 - 1) / 2 = b := by omega
          rw [Nat.testBit_or]
          simp only [Nat.testBit_succ, hhalf, hhalf', Bool.or_self]
      exact ⟨0, by omega⟩

theorem exists_two_pow_of_or_word
    {a : BitVec w} (hpos : 0 < a.toNat) (h : (a ||| (a - 1#w)) + 1#w = a <<< 1) :
    ∃ k, a.toNat = 2 ^ k := by
  apply exists_two_pow_of_or hpos
  have ha := a.isLt
  have hone : (1#w).toNat = 1 := by
    rw [toNat_ofNat]
    exact Nat.mod_eq_of_lt (by omega)
  have hpred : (a - 1#w).toNat = a.toNat - 1 := by
    rw [toNat_sub_of_le, hone]
    rw [le_def, hone]
    exact hpos
  have hle : a.toNat ≤ a.toNat ||| (a.toNat - 1) := Nat.left_le_or
  have hlt : a.toNat ||| (a.toNat - 1) < 2 ^ w := Nat.or_lt_two_pow ha (by omega)
  have hwords := congrArg BitVec.toNat h
  rw [toNat_add, toNat_or, toNat_shiftLeft, hpred, hone, Nat.shiftLeft_eq, pow_one] at hwords
  -- both sides are at most one wrap away from their values
  by_cases hsmall : 2 * a.toNat < 2 ^ w
  · rw [Nat.mod_eq_of_lt (a := a.toNat * 2) (by omega)] at hwords
    by_cases htop : (a.toNat ||| (a.toNat - 1)) + 1 < 2 ^ w
    · rw [Nat.mod_eq_of_lt htop] at hwords
      omega
    · have heq : (a.toNat ||| (a.toNat - 1)) + 1 = 2 ^ w := by omega
      rw [heq, Nat.mod_self] at hwords
      omega
  · rw [Nat.mod_eq_sub_mod (a := a.toNat * 2) (by omega),
      Nat.mod_eq_of_lt (a := a.toNat * 2 - 2 ^ w) (by omega)] at hwords
    by_cases htop : (a.toNat ||| (a.toNat - 1)) + 1 < 2 ^ w
    · rw [Nat.mod_eq_of_lt htop] at hwords
      omega
    · have heq : (a.toNat ||| (a.toNat - 1)) + 1 = 2 ^ w := by omega
      rw [heq, Nat.mod_self] at hwords
      omega

end DragonFly
