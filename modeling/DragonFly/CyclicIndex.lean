import Mathlib

/-!
# Counting around a ring

The places of a ring of `n` places that follow place `u`, in order.
-/

namespace DragonFly

open List

def ringAfter (n u m : ℕ) : List ℕ := (List.range m).map fun k => (u + 1 + k) % n

@[simp] theorem length_ringAfter (n u m : ℕ) : (ringAfter n u m).length = m := by
  simp [ringAfter]

theorem ringAfter_succ (n u m : ℕ) :
    ringAfter n u (m + 1) = (u + 1) % n :: ringAfter n ((u + 1) % n) m := by
  unfold ringAfter
  rw [range_succ_eq_map, map_cons, map_map]
  congr 1
  apply map_congr_left
  intro k _
  have hmod : ((u + 1) % n + 1 + k) % n = (u + 1 + (1 + k)) % n := by
    rw [Nat.add_assoc, Nat.mod_add_mod]
  have hsucc : u + 1 + (k + 1) = u + 1 + (1 + k) := by omega
  simp only [Function.comp_apply, Nat.succ_eq_add_one, hmod, hsucc]

theorem nodup_cyclic (n u : ℕ) : ((List.range n).map fun k => (u + k) % n).Nodup := by
  apply List.Nodup.map_on _ nodup_range
  intro i hi j hj heq
  have hcancel : i ≡ j [MOD n] := Nat.ModEq.add_left_cancel' u heq
  exact hcancel.eq_of_lt_of_lt (mem_range.mp hi) (mem_range.mp hj)

theorem cons_ringAfter_perm (hu : u < n) : (u :: ringAfter n u (n - 1)).Perm (List.range n) := by
  have hturn : u :: ringAfter n u (n - 1) = (List.range n).map fun k => (u + k) % n := by
    obtain ⟨m, rfl⟩ : ∃ m, n = m + 1 := ⟨n - 1, by omega⟩
    have hfirst : (u + 0) % (m + 1) = u := Nat.mod_eq_of_lt hu
    rw [range_succ_eq_map, map_cons, map_map, hfirst]
    congr 1
    apply map_congr_left
    intro k _
    have hsucc : u + (k + 1) = u + 1 + k := by omega
    simp only [Function.comp_apply, Nat.succ_eq_add_one, hsucc]
  rw [hturn]
  have hsub : ((List.range n).map fun k => (u + k) % n) ⊆ List.range n := by
    intro i hi
    obtain ⟨k, _, rfl⟩ := mem_map.mp hi
    exact mem_range.mpr (Nat.mod_lt _ (by omega))
  exact ((nodup_cyclic n u).subperm hsub).perm_of_length_le (by simp)

end DragonFly
