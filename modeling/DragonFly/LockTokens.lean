import Mathlib

/-!
# Accounts of a shared and exclusive lock

A lock that counts its holders and has a flag for exclusive use.  Every party owns
some exclusive and some shared tokens.  The tokens add up to the count, and the
flag says of which kind they are: shared ones of any parties, or exclusive ones of
a single party.
-/

namespace DragonFly

open Function Finset
open scoped BigOperators

variable {T : Type} [Fintype T]

structure Accounts (ex : Bool) (count : ℕ) (e s : T → ℕ) : Prop where
  sum : ∑ t, (e t + s t) = count
  unique : ∀ t u, 0 < e t → 0 < e u → t = u
  noShared : ex = true → ∀ t, s t = 0
  noExclusive : ex = false → ∀ t, e t = 0

namespace Accounts

variable {ex : Bool} {count : ℕ} {e s : T → ℕ}

variable {t u : T}

section

variable (h : Accounts ex count e s)
include h

theorem exclusive_of_pos (ht : 0 < e t) : ex = true := by
  cases hflag : ex with
  | true => rfl
  | false =>
    have hzero := h.noExclusive hflag t
    omega

theorem others_of_exclusive (ht : 0 < e t) (hne : u ≠ t) : e u = 0 ∧ s u = 0 := by
  have hex := h.exclusive_of_pos ht
  constructor
  · by_contra hpos
    exact hne (h.unique u t (Nat.pos_of_ne_zero hpos) ht)
  · exact h.noShared hex u

theorem count_of_exclusive (ht : 0 < e t) : count = e t := by
  have hsum : ∑ u, (e u + s u) = e t + s t := by
    apply sum_eq_single t
    · intro u _ hne
      have hzero := h.others_of_exclusive ht hne
      omega
    · intro hnot
      exact absurd (mem_univ t) hnot
  have hshared := h.noShared (h.exclusive_of_pos ht) t
  rw [← h.sum, hsum]
  omega

theorem le_count (t : T) : e t + s t ≤ count := by
  have hle : e t + s t ≤ ∑ u, (e u + s u) :=
    single_le_sum (f := fun u => e u + s u) (fun _ _ => Nat.zero_le _)
      (mem_univ t)
  rw [h.sum] at hle
  exact hle

end

theorem zero_of_count_zero (h : Accounts ex 0 e s) (t : T) : e t = 0 ∧ s t = 0 := by
  have hzero := (sum_eq_zero_iff.mp h.sum) t (mem_univ t)
  exact Nat.add_eq_zero_iff.mp hzero

variable [DecidableEq T]

theorem add_le_count (h : Accounts ex count e s) (hne : u ≠ t) :
    (e t + s t) + (e u + s u) ≤ count := by
  have hpair : ∑ v ∈ {t, u}, (e v + s v) = (e t + s t) + (e u + s u) := sum_pair hne.symm
  rw [← h.sum, ← hpair]
  exact sum_le_sum_of_subset (subset_univ _)

theorem others_of_count_one (h : Accounts ex 1 e s) (ht : 0 < e t + s t) (hne : u ≠ t) :
    e u = 0 ∧ s u = 0 := by
  have hle := h.add_le_count hne
  constructor
  · omega
  · omega

theorem change (h : Accounts ex count e s) (t : T) (hframe : ∀ u, u ≠ t → e' u = e u ∧ s' u = s u)
    (hcount : count' + (e t + s t) = count + (e' t + s' t))
    (hunique : 0 < e' t → ∀ u, u ≠ t → e u = 0)
    (hshared : ex' = true → s' t = 0 ∧ ∀ u, u ≠ t → s u = 0)
    (hexclusive : ex' = false → e' t = 0 ∧ ∀ u, u ≠ t → e u = 0) : Accounts ex' count' e' s' := by
  have hrest : ∑ u ∈ Finset.univ.erase t, (e' u + s' u) =
      ∑ u ∈ Finset.univ.erase t, (e u + s u) := by
    apply sum_congr rfl
    intro u hu
    obtain ⟨he, hs⟩ := hframe u (ne_of_mem_erase hu)
    rw [he, hs]
  have hold := sum_erase_add Finset.univ (fun u => e u + s u)
    (mem_univ t)
  have hnew := sum_erase_add Finset.univ (fun u => e' u + s' u)
    (mem_univ t)
  constructor
  · rw [h.sum] at hold
    rw [hrest] at hnew
    omega
  · intro u v hu hv
    by_cases hut : u = t
    · by_cases hvt : v = t
      · rw [hut, hvt]
      · rw [hut] at hu
        rw [(hframe v hvt).1, hunique hu v hvt] at hv
        omega
    · by_cases hvt : v = t
      · rw [hvt] at hv
        rw [(hframe u hut).1, hunique hv u hut] at hu
        omega
      · rw [(hframe u hut).1] at hu
        rw [(hframe v hvt).1] at hv
        exact h.unique u v hu hv
  · intro hex u
    by_cases hut : u = t
    · rw [hut]
      exact (hshared hex).1
    · rw [(hframe u hut).2]
      exact (hshared hex).2 u hut
  · intro hex u
    by_cases hut : u = t
    · rw [hut]
      exact (hexclusive hex).1
    · rw [(hframe u hut).1]
      exact (hexclusive hex).2 u hut

theorem transfer (h : Accounts ex count e s) (hne : w ≠ t) (hone : e t = 1) (hgiven : e' t = 0)
    (htaken : e' w = 1) (hframe : ∀ u, u ≠ t → u ≠ w → e' u = e u) (hsame : ∀ u, s' u = s u) :
    Accounts ex count e' s' := by
  have hpos : 0 < e t := by omega
  have hex := h.exclusive_of_pos hpos
  have hcount := h.count_of_exclusive hpos
  have hothers := fun u hu => h.others_of_exclusive (u := u) hpos hu
  have hempty : Accounts ex 0 (update e t 0) s := by
    apply h.change t
    · intro u hu
      exact ⟨update_of_ne hu 0 e, rfl⟩
    · rw [update_self]
      omega
    · rw [update_self]
      intro hfalse
      omega
    · intro _
      exact ⟨h.noShared hex t, fun u hu => (hothers u hu).2⟩
    · intro hfalse
      rw [hex] at hfalse
      cases hfalse
  apply hempty.change w
  · intro u hu
    refine ⟨?_, hsame u⟩
    by_cases hut : u = t
    · rw [hut, update_self, hgiven]
    · rw [update_of_ne hut, hframe u hut hu]
  · rw [hsame, htaken, update_of_ne hne, (hothers w hne).1]
    omega
  · intro _ u hu
    by_cases hut : u = t
    · rw [hut, update_self]
    · rw [update_of_ne hut]
      exact (hothers u hut).1
  · intro _
    exact ⟨by rw [hsame]; exact h.noShared hex w, fun u _ => h.noShared hex u⟩
  · intro hfalse
    rw [hex] at hfalse
    cases hfalse

end Accounts

end DragonFly
