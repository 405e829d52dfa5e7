import Mathlib

/-!
# Totals over the phases of the parties

Every party of a system is in some phase, and a weight says how much a phase
contributes to a shared counter.  A step moves one party to another phase, and the
total moves by the difference of the two weights.
-/

namespace DragonFly

open Function Finset
open scoped BigOperators

variable {T P : Type} [Fintype T]

def total (weight : P → ℕ) (phase : T → P) : ℕ :=
  ∑ t, weight (phase t)

theorem total_update [DecidableEq T] (weight : P → ℕ) (phase : T → P) (t : T) (p : P) :
    total weight (update phase t p) + weight (phase t) = total weight phase + weight p := by
  have hrest : ∑ u ∈ Finset.univ.erase t, weight (update phase t p u) =
        ∑ u ∈ Finset.univ.erase t, weight (phase u) := by
    apply sum_congr rfl
    intro u hu
    rw [update_of_ne (ne_of_mem_erase hu)]
  have hnew := sum_erase_add Finset.univ (fun u => weight (update phase t p u)) (mem_univ t)
  have hold := sum_erase_add Finset.univ (fun u => weight (phase u)) (mem_univ t)
  simp only [update_self] at hnew
  unfold total
  omega

theorem weight_le_total (weight : P → ℕ) (phase : T → P) (t : T) :
    weight (phase t) ≤ total weight phase :=
  single_le_sum (f := fun u => weight (phase u))
    (fun _ _ => Nat.zero_le _) (mem_univ t)

theorem add_weight_le_total (weight : P → ℕ) (phase : T → P) (hne : t ≠ u) :
    weight (phase t) + weight (phase u) ≤ total weight phase := by
  classical
  have hpair : ∑ v ∈ {t, u}, weight (phase v) = weight (phase t) + weight (phase u) := sum_pair hne
  rw [← hpair]
  exact sum_le_sum_of_subset (subset_univ _)

theorem exists_weight_pos {phase : T → P} (h : 0 < total weight phase) :
    ∃ t, 0 < weight (phase t) := by
  by_contra hnone
  push Not at hnone
  have hzero : total weight phase = 0 := by
    apply sum_eq_zero
    intro t _
    exact Nat.le_zero.mp (hnone t)
  omega

theorem total_eq_zero (h : weight p = 0) : total weight (fun _ : T => p) = 0 :=
  sum_eq_zero fun _ _ => h

theorem total_le_card (h : ∀ p, weight p ≤ 1) (phase : T → P) :
    total weight phase ≤ Fintype.card T := by
  calc
    total weight phase ≤ ∑ _t : T, 1 := sum_le_sum fun t _ => h (phase t)
    _ = Fintype.card T := by simp

end DragonFly
