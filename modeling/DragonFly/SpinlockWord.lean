import DragonFly.SpinlockModel

/-!
# The word of a spin lock

`Packs` reads `counta` as a shared flag, a count of contested attempts and a low
count, and says what each operation of the code does to the three.
-/

namespace DragonFly.Spinlock

open BitVec

structure Packs (w : BitVec 32) (flag : Bool) (waits low : ℕ) : Prop where
  value : w.toNat = 2 ^ 31 * flag.toNat + 2 ^ 20 * waits + low
  waits_lt : waits < 2 ^ 11
  low_lt : low < 2 ^ 20

namespace Packs

variable {w : BitVec 32} {flag : Bool} {waits low : ℕ}

theorem eq_iff (h : Packs w flag waits low) (h' : Packs w' flag' waits' low') :
    w = w' ↔ flag = flag' ∧ waits = waits' ∧ low = low' := by
  obtain ⟨hvalue, hwaits, hlow⟩ := h
  obtain ⟨hvalue', hwaits', hlow'⟩ := h'
  rw [← toNat_inj, hvalue, hvalue']
  constructor
  · intro heq
    cases flag <;> cases flag' <;> simp only [Bool.toNat_false, Bool.toNat_true] at heq <;>
      refine ⟨?_, ?_, ?_⟩ <;> first | rfl | omega
  · rintro ⟨rfl, rfl, rfl⟩
    rfl

theorem zero : Packs 0 false 0 0 := by
  constructor <;> decide

theorem one : Packs 1 false 0 1 := by
  constructor <;> decide

theorem sharedFlag : Packs spinlockShared true 0 0 := by
  constructor <;> decide

theorem sharedOne : Packs (spinlockShared ||| 1) true 0 1 := by
  constructor <;> decide

theorem add_one (h : Packs w flag waits low) (hlt : low + 1 < 2 ^ 20) :
    Packs (w + 1) flag waits (low + 1) := by
  obtain ⟨hvalue, hwaits, hlow⟩ := h
  refine ⟨?_, hwaits, hlt⟩
  rw [toNat_add, hvalue]
  have hone : (1 : BitVec 32).toNat = 1 := rfl
  omega

theorem sub_one (h : Packs w flag waits (low + 1)) : Packs (w + (-1)) flag waits low := by
  obtain ⟨hvalue, hwaits, hlow⟩ := h
  refine ⟨?_, hwaits, by omega⟩
  rw [toNat_add, hvalue]
  have hone : (-1 : BitVec 32).toNat = 2 ^ 32 - 1 := rfl
  omega

theorem add_exclwait (h : Packs w flag waits (low + 1)) (hlt : waits + 1 < 2 ^ 11) :
    Packs (w + (spinlockExclwait - 1)) flag (waits + 1) low := by
  obtain ⟨hvalue, hwaits, hlow⟩ := h
  refine ⟨?_, hlt, by omega⟩
  rw [toNat_add, hvalue]
  have hone : (spinlockExclwait - 1).toNat = 2 ^ 20 - 1 := rfl
  omega

theorem clear_shared (h : Packs w flag waits low) :
    Packs (w &&& ~~~spinlockShared) false waits low := by
  obtain ⟨hvalue, hwaits, hlow⟩ := h
  refine ⟨?_, hwaits, hlow⟩
  have hmask : (~~~spinlockShared).toNat = 2 ^ 31 - 1 := rfl
  rw [toNat_and, hmask, Nat.and_two_pow_sub_one_eq_mod, hvalue, Bool.toNat_false]
  omega

theorem and_shared (h : Packs w flag waits low) : w &&& spinlockShared ≠ 0 ↔ flag = true := by
  obtain ⟨hvalue, hwaits, hlow⟩ := h
  have hmask : spinlockShared.toNat = 2 ^ 31 := rfl
  have hbit : w.toNat.testBit 31 = flag := by
    rw [Nat.testBit_eq_decide_div_mod_eq, hvalue]
    cases flag <;> simp <;> omega
  rw [Ne, ← toNat_inj, toNat_and, hmask, Nat.and_two_pow, hbit]
  cases flag <;> simp

theorem and_low (h : Packs w flag waits low) : w &&& (spinlockExclwait - 1) = 0 ↔ low = 0 := by
  obtain ⟨hvalue, hwaits, hlow⟩ := h
  have hmask : (spinlockExclwait - 1).toNat = 2 ^ 20 - 1 := rfl
  have hzero : (0 : BitVec 32).toNat = 0 := rfl
  rw [← toNat_inj, toNat_and, hmask, Nat.and_two_pow_sub_one_eq_mod, hvalue, hzero]
  omega

theorem take (h : Packs w flag (waits + 1) 0) :
    Packs ((w - spinlockExclwait) ||| 1) flag waits 1 := by
  obtain ⟨hvalue, hwaits, _⟩ := h
  refine ⟨?_, by omega, by decide⟩
  have hone : (1 : BitVec 32).toNat = 1 := rfl
  have hexclwait : spinlockExclwait.toNat = 2 ^ 20 := rfl
  have hsub : (w - spinlockExclwait).toNat = 2 * (2 ^ 30 * flag.toNat + 2 ^ 19 * waits) := by
    rw [toNat_sub, hvalue, hexclwait]
    omega
  have hor : 2 ^ 1 * (2 ^ 30 * flag.toNat + 2 ^ 19 * waits) + 1 =
      2 * (2 ^ 30 * flag.toNat + 2 ^ 19 * waits) ||| 1 :=
    Nat.two_pow_add_eq_or_of_lt (by decide) _
  rw [toNat_or, hsub, hone, ← hor]
  omega

end Packs

end DragonFly.Spinlock
