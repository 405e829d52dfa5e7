import Mathlib

/-!
# Rolling a memory back with a log of patches

A patch overwrites consecutive addresses of a memory.  A log of patches is
rolled back newest first, so that the oldest patch decides every address it
covers.
-/

namespace PatchLog

open List

structure Patch (β : Type*) where
  offset : ℕ
  data : List β
  deriving DecidableEq

variable {β : Type*}

def Patch.Covers (patch : Patch β) (address : ℕ) : Prop :=
  patch.offset ≤ address ∧ address < patch.offset + patch.data.length

instance (patch : Patch β) (address : ℕ) : Decidable (patch.Covers address) :=
  inferInstanceAs (Decidable (_ ∧ _))

def Patch.write (patch : Patch β) (memory : ℕ → β) : ℕ → β :=
  fun address =>
    if patch.offset ≤ address then
      (patch.data[address - patch.offset]?).getD (memory address)
    else memory address

def readRange (memory : ℕ → β) (offset length : ℕ) : List β :=
  (List.range length).map fun i => memory (offset + i)

@[simp]
theorem length_readRange (memory : ℕ → β) (offset length : ℕ) :
    (readRange memory offset length).length = length := by
  simp [readRange]

theorem readRange_split (memory : ℕ → β) (offset : ℕ) {length n : ℕ} (hn : n ≤ length) :
    (readRange memory offset length).take n = readRange memory offset n ∧
      (readRange memory offset length).drop n = readRange memory (offset + n) (length - n) := by
  obtain ⟨rest, rfl⟩ := Nat.exists_eq_add_of_le hn
  have hsplit : readRange memory offset (n + rest) =
      readRange memory offset n ++ readRange memory (offset + n) rest := by
    simp [readRange, range_add, Nat.add_assoc]
  constructor
  · rw [hsplit, take_left' (length_readRange _ _ _)]
  · rw [hsplit, drop_left' (length_readRange _ _ _), Nat.add_sub_cancel_left]

def rollback (log : List (Patch β)) (memory : ℕ → β) : ℕ → β :=
  log.foldr Patch.write memory

def Covered (log : List (Patch β)) (address : ℕ) : Prop :=
  ∃ patch ∈ log, patch.Covers address

/-- The patch holds what `memory` holds at the addresses it covers. -/
def Patch.Saves (patch : Patch β) (memory : ℕ → β) : Prop :=
  patch.data = readRange memory patch.offset patch.data.length

variable {address : ℕ} {memory memory' : ℕ → β} {patch : Patch β} {log : List (Patch β)}

theorem Patch.write_of_not_covers (h : ¬patch.Covers address) :
    patch.write memory address = memory address := by
  unfold Patch.write
  unfold Patch.Covers at h
  split_ifs with hle
  · rw [getElem?_eq_none (by omega)]
    rfl
  · rfl

theorem Patch.write_congr (h : patch.Covers address) :
    patch.write memory address = patch.write memory' address := by
  obtain ⟨hle, hlt⟩ := h
  have hindex : address - patch.offset < patch.data.length := by omega
  simp [Patch.write, hle, getElem?_eq_getElem hindex]

theorem Patch.Saves.write_eq (hsaves : patch.Saves memory) (h : patch.Covers address) :
    patch.write memory' address = memory address := by
  obtain ⟨hle, hlt⟩ := h
  have hindex : address - patch.offset < patch.data.length := by omega
  have hoffset : patch.offset + (address - patch.offset) = address := by
    omega
  unfold Patch.write
  rw [if_pos hle, hsaves]
  simp [readRange, hindex, hoffset]

@[simp]
theorem rollback_nil (memory : ℕ → β) : rollback [] memory = memory := rfl

@[simp]
theorem rollback_cons (patch : Patch β) (log : List (Patch β)) (memory : ℕ → β) :
    rollback (patch :: log) memory = patch.write (rollback log memory) := rfl

theorem rollback_append (before after : List (Patch β)) (memory : ℕ → β) :
    rollback (before ++ after) memory = rollback before (rollback after memory) := by
  simp [rollback]

theorem covered_cons :
    Covered (patch :: log) address ↔ patch.Covers address ∨ Covered log address := by
  simp [Covered]

theorem Covered.append_left (h : Covered before address) (after : List (Patch β)) :
    Covered (before ++ after) address := by
  obtain ⟨patch, hmem, hcovers⟩ := h
  exact ⟨patch, mem_append_left _ hmem, hcovers⟩

theorem Covered.append_right
    {after : List (Patch β)} (before : List (Patch β)) (h : Covered after address) :
    Covered (before ++ after) address := by
  obtain ⟨patch, hmem, hcovers⟩ := h
  exact ⟨patch, mem_append_right _ hmem, hcovers⟩

theorem rollback_congr (h : ∀ address, ¬Covered log address → memory address = memory' address) :
    rollback log memory = rollback log memory' := by
  have hpoint : ∀ address, (Covered log address ∨ memory address = memory' address) →
        rollback log memory address = rollback log memory' address := by
    intro address
    clear h
    induction log with
    | nil =>
      rintro (⟨patch, hmem, -⟩ | heq)
      · simp at hmem
      · exact heq
    | cons patch log ih =>
      intro hor
      rw [covered_cons] at hor
      by_cases hcovers : patch.Covers address
      · exact Patch.write_congr hcovers
      · rw [rollback_cons, rollback_cons, Patch.write_of_not_covers hcovers,
          Patch.write_of_not_covers hcovers]
        apply ih
        rcases hor with (hfirst | hlog) | heq
        · exact absurd hfirst hcovers
        · exact Or.inl hlog
        · exact Or.inr heq
  funext address
  apply hpoint
  by_cases hcovered : Covered log address
  · exact Or.inl hcovered
  · exact Or.inr (h address hcovered)

/-- Patches saved from a memory restore it after a change of the addresses
they cover. -/
theorem rollback_saved (hsaves : ∀ patch ∈ log, patch.Saves memory)
    (h : ∀ address, ¬Covered log address → memory' address = memory address) :
    rollback log memory' = memory := by
  rw [rollback_congr h]
  clear h
  induction log with
  | nil => rfl
  | cons patch log ih =>
    have hlog := ih fun patch' hmem =>
      hsaves patch' (mem_cons_of_mem _ hmem)
    rw [rollback_cons, hlog]
    funext address
    by_cases hcovers : patch.Covers address
    · exact (hsaves patch mem_cons_self).write_eq hcovers
    · exact Patch.write_of_not_covers hcovers

end PatchLog
