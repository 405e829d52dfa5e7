import Mathlib

/-!
# Serial numbers

A position in an unbounded stream is named by its low bits.  Two positions less
than half a turn apart are ordered, and at the same distance, as the signed
difference of their names says.
-/

namespace DragonFly

open BitVec

/-- The name of a position. -/
def serial (w n : ℕ) : BitVec w :=
  BitVec.ofNat w n

namespace Serial

variable {w : ℕ}

theorem serial_add (a n : ℕ) : serial w a + BitVec.ofNat w n = serial w (a + n) :=
  (ofNat_add a n).symm

theorem serial_add_ofInt (a : ℕ) (hi : 0 ≤ i) :
    serial w a + BitVec.ofInt w i = serial w (a + i.toNat) := by
  obtain ⟨n, rfl⟩ := Int.eq_ofNat_of_zero_le hi
  rw [ofInt_natCast, Int.toNat_natCast]
  exact serial_add a n

theorem toInt_sub {a b : ℕ} (hlow : (b : ℤ) - a ≤ 2 ^ w) (hhigh : (a : ℤ) - b < 2 ^ w) :
    (serial (w + 1) a - serial (w + 1) b).toInt = (a : ℤ) - b := by
  have hpow : (2 : ℤ) ^ (w + 1) = 2 * 2 ^ w := by ring
  have hcast : ((2 ^ (w + 1) : ℕ) : ℤ) = 2 * 2 ^ w := by
    push_cast
    exact hpow
  unfold serial
  rw [BitVec.toInt_sub, BitVec.toInt_ofNat', BitVec.toInt_ofNat',
    Int.sub_bmod_bmod, Int.bmod_sub_bmod]
  apply Int.bmod_eq_of_le
  · rw [hcast]
    omega
  · rw [hcast]
    omega

theorem eq_iff {a b : ℕ} (hlow : (b : ℤ) - a ≤ 2 ^ w) (hhigh : (a : ℤ) - b < 2 ^ w) :
    serial (w + 1) a = serial (w + 1) b ↔ a = b := by
  constructor
  · intro heq
    have hsub := toInt_sub hlow hhigh
    rw [heq, BitVec.sub_self, BitVec.toInt_zero] at hsub
    omega
  · intro heq
    rw [heq]

theorem eq_serial_add (word : BitVec w) (base : ℕ) :
    word = serial w (base + (word - serial w base).toNat) := by
  rw [← serial_add, BitVec.ofNat_toNat, BitVec.setWidth_eq, BitVec.add_comm, BitVec.sub_add_cancel]

theorem sub_of_le (hle : a ≤ b) : serial w b - serial w a = BitVec.ofNat w (b - a) := by
  have hadd : serial w b = BitVec.ofNat w (b - a) + serial w a := by
    rw [BitVec.add_comm, serial_add]
    congr 1
    omega
  rw [hadd, BitVec.add_sub_cancel]

theorem toNat_sub (hle : a ≤ b) (hlt : b - a < 2 ^ w) :
    (serial w b - serial w a).toNat = b - a := by
  rw [sub_of_le hle, BitVec.toNat_ofNat]
  exact Nat.mod_eq_of_lt hlt

end Serial

end DragonFly
