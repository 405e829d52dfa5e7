import DragonFly.SlabRun

/-!
# What the users of the slab allocator see

In every state the cpus can reach, the chunks that are in use do not overlap, a zone
has the free chunks it counts, and a zone that is given up is in nobody's hands.
-/

namespace DragonFly.Slab

open Multiset State

variable {C : Type}

def State.extent (cfg : Config) (s : State C) (zone : ℕ) (l : Live C) : Set ℕ :=
  Set.Ico (zone * cfg.zoneSize + l.chunk)
    (zone * cfg.zoneSize + l.chunk + (s.slot zone).header.elim 0 fun z => z.chunkSize)

/-- The chunks of a zone that have not been handed out since it was set up. -/
def Slot.neverUsed (σ : Slot C) (z : SLZone C) : List ℕ :=
  z.cells.filter fun p => p ∉ σ.used

structure State.Safe (cfg : Config) (s : State C) : Prop where
  running : s.panicked = false
  /-- A chunk in use lies in the data area of a zone of the cpu that allocated it. -/
  placed : ∀ zone, ∀ l ∈ (s.slot zone).live, ∃ z,
    (s.slot zone).header = some z ∧ z.cpu = l.cpu ∧ l.size ≤ z.chunkSize ∧ s.extent cfg zone l ⊆
        Set.Ico (zone * cfg.zoneSize + z.basePtr) ((zone + 1) * cfg.zoneSize)
  distinct : ∀ zone, ((s.slot zone).live.map Live.chunk).Nodup
  disjoint : ∀ zone zone' l l', l ∈ (s.slot zone).live → l' ∈ (s.slot zone').live →
    (zone, l.chunk) ≠ (zone', l'.chunk) →
    Disjoint (s.extent cfg zone l) (s.extent cfg zone' l')
  /-- The owner's `kmalloc` counts a chunk off before it takes it. -/
  counted : ∀ zone z, (s.slot zone).header = some z → z.magic = true →
    ∃ L, Chain z.cNext z.lChunks L ∧ z.nFree + takenBy ((s.slgd z.cpu).flight zone) =
        L.length + ((s.slot zone).neverUsed z).length
  released : ∀ c zone, zone ∈ (s.slgd c).freeZones → (s.slot zone).Unused ∧
      ∀ c' kind zone' pc, (s.slgd c').op = some (.work kind zone' pc) → zone' ≠ zone

variable {L R : List ℕ} {taken : ℤ} {z : SLZone C} {σ : Slot C} {cfg : Config} {l : Live C}
  {zone : ℕ} {s : State C}

theorem Sound.length_neverUsed
    (h : Sound cfg σ z taken L R) : (σ.neverUsed z).length = z.fresh := by
  have hcells := h.shape.nodup_cells
  have hnodup : z.freshCells.Nodup := by
    have hall := h.nodup
    rw [add_assoc, add_assoc] at hall
    exact coe_nodup.mp (nodup_add.mp (nodup_add.mp hall).2.1).1
  have hsub : ∀ p ∈ z.freshCells, p ∈ z.cells := by
    intro p hp
    have hmem : p ∈ (L : Multiset ℕ) + R + z.freshCells + σ.live.map Live.chunk +
        heldBy σ.tasks := by
      simp [hp]
    rw [h.parts] at hmem
    exact hmem
  have hperm : (σ.neverUsed z).Perm z.freshCells := by
    unfold Slot.neverUsed
    rw [List.perm_ext_iff_of_nodup (hcells.filter _) hnodup]
    intro p
    simp only [List.mem_filter, decide_eq_true_eq]
    constructor
    · rintro ⟨hp, hunused⟩
      by_contra hnot
      exact hunused ((h.used p hp).mpr hnot)
    · intro hp
      refine ⟨hsub p hp, ?_⟩
      rw [h.used p (hsub p hp)]
      simpa using hp
  rw [hperm.length_eq, Layout.length_freshCells]

theorem Sound.exists_cell (h : Sound cfg σ z taken L R) (hl : l ∈ σ.live) :
    ∃ i, i < z.nMax ∧ l.chunk = z.basePtr + i * z.chunkSize := by
  obtain ⟨i, hi, heq⟩ := List.mem_map.mp (h.mem_cells hl)
  exact ⟨i, List.mem_range.mp hi, heq.symm⟩

theorem Sound.chunk_le (h : Sound cfg σ z taken L R) (hl : l ∈ σ.live) :
    z.basePtr ≤ l.chunk ∧ l.chunk + z.chunkSize ≤ cfg.zoneSize := by
  obtain ⟨i, hi, heq⟩ := h.exists_cell hl
  have hroom := h.shape.room
  have hmul : (i + 1) * z.chunkSize ≤ z.nMax * z.chunkSize := Nat.mul_le_mul_right _ hi
  rw [Nat.add_mul, Nat.one_mul] at hmul
  omega

section

variable (h : Inv cfg s) (hl : l ∈ (s.slot zone).live)
include h hl

theorem Inv.live_sound :
    ∃ z taken L R, (s.slot zone).header = some z ∧ Sound cfg (s.slot zone) z taken L R := by
  obtain ⟨z, hz, hmagic⟩ := h.inUse_of_live hl
  obtain ⟨_, L, R, hs⟩ := h.zone zone z hz hmagic
  exact ⟨z, _, L, R, hz, hs⟩

theorem Inv.extent_subset :
    s.extent cfg zone l ⊆ Set.Ico (zone * cfg.zoneSize) ((zone + 1) * cfg.zoneSize) := by
  obtain ⟨z, _, _, _, hz, hs⟩ := h.live_sound hl
  have hle := hs.chunk_le hl
  unfold extent
  rw [hz]
  apply Set.Ico_subset_Ico
  · omega
  · rw [Nat.add_mul, Nat.one_mul]
    simp only [Option.elim_some]
    omega

theorem Inv.disjoint_extent
    (hl' : l' ∈ (s.slot zone').live) (hne : (zone, l.chunk) ≠ (zone', l'.chunk)) :
    Disjoint (s.extent cfg zone l) (s.extent cfg zone' l') := by
  by_cases hzone : zone = zone'
  · subst hzone
    obtain ⟨z, _, _, _, hz, hs⟩ := h.live_sound hl
    obtain ⟨i, _, hi⟩ := hs.exists_cell hl
    obtain ⟨j, _, hj⟩ := hs.exists_cell hl'
    have hij : i ≠ j := by
      rintro rfl
      apply hne
      rw [hi, hj]
    unfold extent
    rw [hz, Set.Ico_disjoint_Ico]
    simp only [Option.elim_some]
    rcases Nat.lt_or_gt_of_ne hij with hlt | hlt
    · have hmul : (i + 1) * z.chunkSize ≤ j * z.chunkSize := Nat.mul_le_mul_right _ hlt
      rw [Nat.add_mul, Nat.one_mul] at hmul
      rw [hi, hj]
      omega
    · have hmul : (j + 1) * z.chunkSize ≤ i * z.chunkSize := Nat.mul_le_mul_right _ hlt
      rw [Nat.add_mul, Nat.one_mul] at hmul
      rw [hi, hj]
      omega
  · apply Set.disjoint_of_subset (h.extent_subset hl) (h.extent_subset hl')
    rw [Set.Ico_disjoint_Ico]
    rcases Nat.lt_or_gt_of_ne hzone with hlt | hlt
    · have hmul : (zone + 1) * cfg.zoneSize ≤ zone' * cfg.zoneSize := Nat.mul_le_mul_right _ hlt
      exact le_trans (min_le_left _ _) (le_trans hmul (le_max_right _ _))
    · have hmul : (zone' + 1) * cfg.zoneSize ≤ zone * cfg.zoneSize := Nat.mul_le_mul_right _ hlt
      exact le_trans (min_le_right _ _) (le_trans hmul (le_max_left _ _))

end

theorem Inv.safe (h : Inv cfg s) : s.Safe cfg := by
  constructor
  · exact h.running
  · intro zone l hl
    obtain ⟨z, _, _, _, hz, hs⟩ := h.live_sound hl
    have hle := hs.chunk_le hl
    obtain ⟨hcpu, hsize⟩ := hs.owned l hl
    refine ⟨z, hz, hcpu.symm, hsize, ?_⟩
    unfold extent
    rw [hz]
    apply Set.Ico_subset_Ico
    · omega
    · rw [Nat.add_mul, Nat.one_mul]
      simp only [Option.elim_some]
      omega
  · intro zone
    by_cases hempty : (s.slot zone).live = 0
    · rw [hempty]
      exact nodup_zero
    · obtain ⟨l, hl⟩ := exists_mem_of_ne_zero hempty
      obtain ⟨z, _, _, _, _, hs⟩ := h.live_sound hl
      exact (nodup_add.mp (nodup_add.mp hs.nodup).1).2.1
  · intro zone zone' l l' hl hl' hne
    exact h.disjoint_extent hl hl' hne
  · intro zone z hz hmagic
    obtain ⟨_, L, R, hs⟩ := h.zone zone z hz hmagic
    refine ⟨L, hs.chain, ?_⟩
    rw [hs.length_neverUsed]
    exact hs.count
  · intro c zone hfree
    rw [h.mem_free] at hfree
    obtain ⟨z, hz, hmagic, _⟩ := hfree
    constructor
    · apply h.unused
      intro y hy
      rw [hz] at hy
      cases hy
      exact hmagic
    · rintro c' kind zone' pc hwork rfl
      obtain ⟨y, hy, htrue, _⟩ := h.busy c' kind zone' pc hwork
      rw [hz] at hy
      cases hy
      rw [hmagic] at htrue
      simp at htrue

variable [DecidableEq C]

def State.Reached (cfg : Config) : State C → Prop :=
  Reachable (fun s => s = State.initial) (fun _ _ => True) (State.next cfg)

theorem inv_of_reached (h : s.Reached cfg) : Inv cfg s := by
  refine Reachable.invariant (Inv cfg) ?_ ?_ h
  · rintro s rfl
    exact inv_initial cfg
  · intro s e s' hinv _ hnext
    exact hinv.next hnext

theorem State.safe_of_reached {cfg : Config} {s : State C} (h : s.Reached cfg) : s.Safe cfg :=
  (inv_of_reached h).safe

/-- Zones of 32K without the consistency checks of `INVARIANTS`. -/
def smallConfig : Config := ⟨32 * 1024, false, 32, .inl rfl⟩

/-- Cpu `false` sets up a zone for three chunks of 8K and hands out two of them. -/
def twoChunks : List (Event Bool) :=
  [.kmalloc false 8000, .slabAllocated false 8000 5, .kmalloc false 8000]

/-- The steps of cpu `true` on a chunk of the zone. -/
def remoteSteps (chunk : ℕ) (pcs : List FreePc) : List (Event Bool) :=
  pcs.map fun pc => .remote 5 ⟨chunk, pc⟩

/-- Cpu `true` frees the first chunk, and cpu `false` takes it off the remote list. -/
theorem safe_after_remote_free :
    ∃ s : State Bool, s.Reached smallConfig ∧
      (s.slot 5).live.map Live.chunk = {8192, 16384} ∧ s.Safe smallConfig := by
  have hrun : ((runEvents (fun _ _ => True) (next smallConfig) (initial : State Bool)
      (twoChunks ++ [.kfree true 5 ⟨false, 8192, 8000⟩] ++
        remoteSteps 8192 [.sample, .read false, .link false none] ++
        [.kmalloc false 8000, .advance false, .advance false, .advance false,
          .advance false])).map fun s => (s.slot 5).live.map Live.chunk) =
      some {8192, 16384} := by
    decide +kernel
  have hstart : (initial : State Bool).Reached smallConfig := .start rfl
  obtain ⟨s, hreached, hlive⟩ := hstart.view hrun
  exact ⟨s, hreached, hlive, safe_of_reached hreached⟩

end DragonFly.Slab
