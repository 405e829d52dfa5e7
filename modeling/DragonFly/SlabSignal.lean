import DragonFly.SlabSafety

/-!
# Signals between the cpus of a zone

A zone that has no free chunk left is off the lists of its owner, and only a
`kfree_remote` message brings it back.  The owner sets `z_RSignal` when it takes the
last chunk.  A `kfree` that has read the flag before, and links its chunk after, sends
no message.  When that does not happen, no zone is left behind.
-/

namespace DragonFly.Slab

open Function Multiset Option State

/-- A call that has read a clear `z_RSignal` and has still to link its chunk. -/
@[simp] def FreePc.silent : FreePc → Bool
  | .read false | .link false _ => true
  | _ => false

section Guard

variable {C : Type}

def Slot.Quiet (σ : Slot C) : Prop := ∀ t ∈ σ.tasks, t.pc.silent = false

/-- A message is on its way, or about to be sent. -/
def Slot.Signalled (σ : Slot C) (c : C) : Prop :=
  c ∈ σ.messages ∨ ∃ t ∈ σ.tasks, t.pc = .signal

structure Armed (z : SLZone C) (σ : Slot C) : Prop where
  signal : z.rSignal = true
  quiet : σ.Quiet
  signalled : z.rChunks ≠ none → σ.Signalled z.cpu

def SLGlobalData.phase (g : SLGlobalData) (zone : ℕ) : Option (Kind × Pc) :=
  match g.op with
  | some (.work kind zone' pc) => if zone' = zone then some (kind, pc) else none
  | _ => none

/-- What protects a zone without free chunks, at every point of its owner. -/
def Guard (phase : Option (Kind × Pc)) (z : SLZone C) (σ : Slot C) : Prop :=
  match phase with
  | none => Armed z σ
  | some (.remote _, .test) => z.rSignal = true ∧ σ.Quiet
  | some (.remote _, .signal) => z.rChunks ≠ none
  | some (_, .read) => z.rChunks ≠ none ∨ z.rSignal = true ∧ σ.Quiet
  | some (_, .swap _) => z.rChunks ≠ none
  | some (_, .settle) => Armed z σ
  | some (_, .test) | some (_, .signal) => True

def Guarded (s : State C) : Prop :=
  ∀ zone z, (s.slot zone).header = some z → z.magic = true → z.nFree = 0 →
    Guard ((s.slgd z.cpu).phase zone) z (s.slot zone)

/-- A zone that is off its list and has chunks of other cpus is announced to its owner,
unless somebody is still at work on it. -/
def State.NotStranded (s : State C) : Prop :=
  ∀ zone z, (s.slot zone).header = some z → z.magic = true →
    zone ∉ (s.slgd z.cpu).zoneAry z.zoneIndex → z.nFree = 0 → z.rChunks ≠ none →
    (s.slot zone).tasks = 0 → (∀ kind pc, (s.slgd z.cpu).op ≠ some (.work kind zone pc)) →
    z.cpu ∈ (s.slot zone).messages

/-- The owner does not set `z_RSignal` while a call that has read it clear has still to
link its chunk. -/
def State.Interlocked (s : State C) : Event C → Prop
  | .advance c =>
    match (s.slgd c).op with
    | some (.work (.malloc _ _) zone .signal) => (s.slot zone).Quiet
    | _ => True
  | _ => True

variable {g : SLGlobalData} {z : SLZone C}

variable {zone : ℕ}

theorem phase_eq_none (h : ∀ kind pc, g.op ≠ some (.work kind zone pc)) : g.phase zone = none := by
  unfold SLGlobalData.phase
  split
  · next kind zone' pc heq =>
      split_ifs with hzone
      · subst hzone
        exact absurd heq (h kind pc)
      · rfl
  · rfl

theorem phase_of_none (hop : g.op = none) : g.phase zone = none := by
  apply phase_eq_none
  intro kind pc
  rw [hop]
  simp

theorem phase_of_work (hop : g.op = some (.work kind zone pc)) :
    g.phase zone = some (kind, pc) := by
  simp [SLGlobalData.phase, hop]

theorem phase_of_ne (hop : g.op = some (.work kind zone' pc)) (hne : zone' ≠ zone) :
    g.phase zone = none := by
  simp [SLGlobalData.phase, hop, hne]

theorem Guarded.notStranded (h : Guarded s) : s.NotStranded := by
  intro zone z hz hmagic _ hempty hchunks htasks hidle
  have hguard := h zone z hz hmagic hempty
  rw [phase_eq_none hidle] at hguard
  rcases hguard.signalled hchunks with hmessage | ⟨t, ht, _⟩
  · exact hmessage
  · rw [htasks] at ht
    exact absurd ht (notMem_zero t)

theorem Guard.mono (h : Guard phase z σ) (hcpu : z'.cpu = z.cpu) (hsignal : z'.rSignal = z.rSignal)
    (hchunks : z.rChunks ≠ none → z'.rChunks ≠ none)
    (hquiet : z.rSignal = true → σ.Quiet → σ'.Quiet)
    (hsignalled : z.rSignal = true → σ.Quiet → z'.rChunks ≠ none →
      (z.rChunks ≠ none → σ.Signalled z.cpu) → σ'.Signalled z.cpu) : Guard phase z' σ' := by
  have harmed : Armed z σ → Armed z' σ' := by
    intro ha
    refine ⟨hsignal.trans ha.signal, hquiet ha.signal ha.quiet, ?_⟩
    intro hne
    rw [hcpu]
    exact hsignalled ha.signal ha.quiet hne ha.signalled
  have hset : z.rSignal = true ∧ σ.Quiet → z'.rSignal = true ∧ σ'.Quiet := by
    rintro ⟨hs, hq⟩
    exact ⟨hsignal.trans hs, hquiet hs hq⟩
  match phase, h with
  | none, h => exact harmed h
  | some (.remote _, .test), h => exact hset h
  | some (.remote _, .signal), h => exact hchunks h
  | some (.remote _, .read), h => exact h.imp hchunks hset
  | some (.malloc _ _, .read), h => exact h.imp hchunks hset
  | some (.cleanup _, .read), h => exact h.imp hchunks hset
  | some (.remote _, .swap _), h => exact hchunks h
  | some (.malloc _ _, .swap _), h => exact hchunks h
  | some (.cleanup _, .swap _), h => exact hchunks h
  | some (.remote _, .settle), h => exact harmed h
  | some (.malloc _ _, .settle), h => exact harmed h
  | some (.cleanup _, .settle), h => exact harmed h
  | some (.malloc _ _, .test), _ => trivial
  | some (.cleanup _, .test), _ => trivial
  | some (.malloc _ _, .signal), _ => trivial
  | some (.cleanup _, .signal), _ => trivial

theorem checkZoneFree_header (h : g.checkZoneFree zone z = some (g', y)) (hmagic : y.magic = true) :
    y = z := by
  simp only [SLGlobalData.checkZoneFree] at h
  split_ifs at h
  · simp only [some.injEq, Prod.mk.injEq] at h
    rw [← h.2] at hmagic
    simp at hmagic
  · simp only [some.injEq, Prod.mk.injEq] at h
    exact h.2.symm

theorem checkZoneFree_cpu (h : g.checkZoneFree zone z = some (g', y)) : y.cpu = z.cpu := by
  simp only [SLGlobalData.checkZoneFree] at h
  split_ifs at h
  · simp only [some.injEq, Prod.mk.injEq] at h
    rw [← h.2]
  · simp only [some.injEq, Prod.mk.injEq] at h
    rw [h.2]

theorem fail_not_inv {s : State C} (hinv : Inv cfg s.fail) : False := by
  have hrunning := hinv.running
  simp [fail] at hrunning

end Guard

section Steps

variable {C : Type} [DecidableEq C] {cfg : Config} {s : State C} {c : C} {zone : ℕ}

variable {g : SLGlobalData} {σ : Slot C} {z z' : SLZone C} {size : ℕ}

theorem Guarded.change (h : Guarded s) (hcpu : ∀ z, σ.header = some z → z.cpu = c)
    (hothers : ∀ zone', zone' ≠ zone → ∀ z, (s.slot zone').header = some z → z.magic = true →
      z.cpu = c → z.nFree = 0 → g.phase zone' = (s.slgd c).phase zone')
    (hzone : ∀ z, σ.header = some z → z.magic = true → z.nFree = 0 → Guard (g.phase zone) z σ) :
    Guarded ((s.setSlot zone σ).setSlgd c g) := by
  intro zone' z hz hmagic hempty
  have hslgd : ∀ c', c' ≠ c → ((s.setSlot zone σ).setSlgd c g).slgd c' = s.slgd c' := by
    intro c' hne
    exact update_of_ne hne g s.slgd
  have hslgd' : ((s.setSlot zone σ).setSlgd c g).slgd c = g := by
    simp [setSlgd]
  by_cases hne : zone' = zone
  · subst hne
    have hslot : ((s.setSlot zone' σ).setSlgd c g).slot zone' = σ := by
      simp [setSlot, setSlgd]
    rw [hslot] at hz ⊢
    rw [hcpu z hz, hslgd']
    exact hzone z hz hmagic hempty
  · have hslot : ((s.setSlot zone σ).setSlgd c g).slot zone' = s.slot zone' := by
      simp [setSlot, setSlgd, hne]
    rw [hslot] at hz ⊢
    have hguard := h zone' z hz hmagic hempty
    by_cases hc : z.cpu = c
    · rw [hc, hslgd', hothers zone' hne z hz hmagic hc hempty, ← hc]
      exact hguard
    · rw [hslgd z.cpu hc]
      exact hguard

theorem Guarded.setSlgd (h : Guarded s)
    (hphase : ∀ zone z, (s.slot zone).header = some z → z.magic = true → z.cpu = c →
      z.nFree = 0 → g.phase zone = (s.slgd c).phase zone) : Guarded (s.setSlgd c g) := by
  intro zone z hz hmagic hempty
  have hguard := h zone z hz hmagic hempty
  by_cases hc : z.cpu = c
  · have hslgd : (s.setSlgd c g).slgd c = g := by
      simp [State.setSlgd]
    rw [hc, hslgd, hphase zone z hz hmagic hc hempty, ← hc]
    exact hguard
  · have hslgd : (s.setSlgd c g).slgd z.cpu = s.slgd z.cpu := by
      simp [State.setSlgd, hc]
    rw [hslgd]
    exact hguard

theorem Guarded.setSlot
    (h : Guarded s) (hz : (s.slot zone).header = some z) (hmagic : z.magic = true)
    (hheader : σ.header = some z') (hcpu : z'.cpu = z.cpu) (hfree : z'.nFree = z.nFree)
    (hzone : ∀ phase, Guard phase z (s.slot zone) → Guard phase z' σ) :
    Guarded (s.setSlot zone σ) := by
  rw [← setOp_self (s.setSlot zone σ) z.cpu]
  apply h.change
  · intro y hy
    rw [hheader] at hy
    cases hy
    exact hcpu
  · intro zone' _ y _ _ _ _
    rfl
  · intro y hy _ hempty
    rw [hheader] at hy
    cases hy
    apply hzone
    exact h zone z hz hmagic (hfree.symm.trans hempty)

/-! ## Other cpus -/

theorem Guarded.moveTask (h : Guarded s) (ht : t ∈ (s.slot zone).tasks)
    (hz : (s.slot zone).header = some z) (hmagic : z.magic = true) (hcpu : z'.cpu = z.cpu)
    (hfree : z'.nFree = z.nFree) (hsignal : z'.rSignal = z.rSignal)
    (hchunks : z'.rChunks = z.rChunks) (hnot : t.pc ≠ .signal)
    (hpc : z.rSignal = true → t.pc.silent = false → pc.silent = false) :
    Guarded (s.setSlot zone ⟨some z', ⟨t.chunk, pc⟩ ::ₘ (s.slot zone).tasks.erase t,
        (s.slot zone).messages, (s.slot zone).live, (s.slot zone).used⟩) := by
  refine h.setSlot hz hmagic rfl hcpu hfree ?_
  intro phase hguard
  apply hguard.mono hcpu hsignal
  · rw [hchunks]
    exact id
  · intro hset hquiet u hu
    rcases mem_cons.mp hu with rfl | hu
    · exact hpc hset (hquiet t ht)
    · exact hquiet u (mem_of_mem_erase hu)
  · intro _ _ hne hsignalled
    rw [hchunks] at hne
    rcases hsignalled hne with hmessage | ⟨u, hu, hu'⟩
    · exact .inl hmessage
    · have hut : u ≠ t := by
        rintro rfl
        exact hnot hu'
      exact .inr ⟨u, mem_cons_of_mem ((mem_erase_of_ne hut).mpr hu), hu'⟩

theorem Guarded.remoteStep (hinv : Inv cfg s) (h : Guarded s) (ht : t ∈ (s.slot zone).tasks) :
    Guarded (s.remoteStep zone t) := by
  obtain ⟨z, hz, hmagic⟩ := hinv.inUse_of_task ht
  simp only [State.remoteStep, hz]
  cases hpc : t.pc with
  | sample =>
    refine h.moveTask ht hz hmagic rfl rfl rfl rfl ?_ ?_
    · rw [hpc]
      simp
    · intro hset _
      rw [if_pos hset]
      rfl
  | retain =>
    refine h.moveTask ht hz hmagic rfl rfl rfl rfl ?_ ?_
    · rw [hpc]
      simp
    · intro _ _
      rfl
  | read rsignal =>
    refine h.moveTask ht hz hmagic rfl rfl rfl rfl ?_ ?_
    · rw [hpc]
      simp
    · intro _ hquiet
      rw [hpc] at hquiet
      cases rsignal with
      | false => simp at hquiet
      | true => rfl
  | link rsignal bchunk =>
    by_cases heq : z.rChunks = bchunk
    · subst heq
      simp only [if_true]
      cases rsignal with
      | false =>
        -- A silent call never meets a zone that is protected by its signal.
        simp only [Bool.false_eq_true, if_false]
        refine h.setSlot hz hmagic rfl rfl rfl ?_
        intro phase hguard
        have hloud : ¬ (s.slot zone).Quiet := by
          intro hquiet
          have hfalse := hquiet t ht
          rw [hpc] at hfalse
          simp at hfalse
        refine hguard.mono rfl rfl ?_ ?_ ?_
        · intro _
          simp
        · intro _ hquiet
          exact absurd hquiet hloud
        · intro _ hquiet
          exact absurd hquiet hloud
      | true =>
        refine h.setSlot hz hmagic rfl rfl rfl ?_
        intro phase hguard
        refine hguard.mono rfl rfl ?_ ?_ ?_
        · intro _
          simp
        · intro _ hquiet u hu
          rcases mem_cons.mp hu with rfl | hu
          · simp only
            split_ifs <;> rfl
          · exact hquiet u (mem_of_mem_erase hu)
        · intro _ _ _ hsignalled
          by_cases hnone : z.rChunks = none
          · refine .inr ⟨_, mem_cons_self _ _, ?_⟩
            exact if_pos hnone
          · rcases hsignalled hnone with hmessage | ⟨u, hu, hu'⟩
            · exact .inl hmessage
            · have hut : u ≠ t := by
                rintro rfl
                rw [hpc] at hu'
                simp at hu'
              exact .inr ⟨u, mem_cons_of_mem ((mem_erase_of_ne hut).mpr hu), hu'⟩
    · simp only [if_neg heq]
      refine h.moveTask ht hz hmagic rfl rfl rfl rfl ?_ ?_
      · rw [hpc]
        simp
      · intro _ hquiet
        rw [hpc] at hquiet
        cases rsignal with
        | false => simp at hquiet
        | true => rfl
  | signal =>
    refine h.setSlot hz hmagic rfl rfl rfl ?_
    intro phase hguard
    refine hguard.mono rfl rfl ?_ ?_ ?_
    · exact id
    · intro _ hquiet u hu
      exact hquiet u (mem_of_mem_erase hu)
    · intro _ _ _ _
      exact .inl (mem_cons_self _ _)
  | drop =>
    refine h.setSlot hz hmagic rfl rfl rfl ?_
    intro phase hguard
    refine hguard.mono rfl rfl ?_ ?_ ?_
    · exact id
    · intro _ hquiet u hu
      exact hquiet u (mem_of_mem_erase hu)
    · intro _ _ hne hsignalled
      rcases hsignalled hne with hmessage | ⟨u, hu, hu'⟩
      · exact .inl hmessage
      · have hut : u ≠ t := by
          rintro rfl
          rw [hpc] at hu'
          simp at hu'
        exact .inr ⟨u, (mem_erase_of_ne hut).mpr hu, hu'⟩

/-! ## The owner -/

section

variable (h : Guarded s)
include h

theorem Guarded.refill (hcpu : ∀ z, σ.header = some z → z.cpu = c)
    (hothers : ∀ zone', zone' ≠ zone → ∀ z, (s.slot zone').header = some z → z.magic = true →
      z.cpu = c → z.nFree = 0 → g.phase zone' = (s.slgd c).phase zone')
    (hfree : ∀ z, σ.header = some z → z.magic = true → z.nFree ≠ 0) :
    Guarded ((s.setSlot zone σ).setSlgd c g) := by
  apply h.change hcpu hothers
  intro z hz hmagic hempty
  exact absurd hempty (hfree z hz hmagic)

theorem Guarded.newZone (hop : (s.slgd c).op = none) (hgop : g.op = none)
    (hsize : cfg.Zoned size) (hk : zoneindex size = some k) (hunused : (s.slot zone).Unused) :
    Guarded (State.newZone cfg (s.setSlgd c g) c zone size k cNext) := by
  have hs := Sound.init hsize hk hunused c g.junkIndex cNext none
  have htwo : 2 ≤ (SLZone.init cfg c k g.junkIndex cNext).nMax := hs.shape.two
  have hslgd : (s.setSlgd c g).slgd c = g := by
    simp [State.setSlgd]
  simp only [State.newZone, hslgd]
  simp only [State.setSlgd, State.setSlot, update_idem]
  apply h.refill
  · intro z hz
    cases hz
    rfl
  · intro zone' _ z _ _ _ _
    rw [phase_of_none hop]
    exact phase_of_none hgop
  · intro z hz _ hzero
    cases hz
    have hnFree : ((SLZone.init cfg c k g.junkIndex cNext).nMax : ℤ) - 1 = 0 := hzero
    omega

theorem Guarded.kmalloc
    (hinv : Inv cfg s) (hop : (s.slgd c).op = none) (hsize : cfg.Zoned size) :
    Guarded (s.kmalloc cfg c size) := by
  obtain ⟨k, hk⟩ := zoneindex_isSome hsize
  have hfits := zoneindex_fits hsize.1 hk
  have hlt : ¬ nzones ≤ k.index := not_le.mpr hfits.index_lt
  have hflight : ∀ zone, (s.slgd c).flight zone = none := fun _ => flight_of_none hop
  have hphase : ∀ zone, (s.slgd c).phase zone = none := fun _ => phase_of_none hop
  simp only [State.kmalloc, hk, if_neg hlt]
  cases hlist : (s.slgd c).zoneAry k.index with
  | cons zone rest =>
    have hmem : zone ∈ (s.slgd c).zoneAry k.index := by
      rw [hlist]
      exact List.mem_cons_self
    rw [hinv.mem_ary, hflight] at hmem
    obtain ⟨z, hz, hmagic, rfl, hindex, hpos⟩ := hmem
    replace hpos : 0 < z.nFree := hpos
    obtain ⟨_, L, R, hs⟩ := hinv.zone zone z hz hmagic
    rw [hflight] at hs
    simp only [hz]
    split_ifs with hmore hlast
    · obtain ⟨z', p, heq, hsame, hfree, _⟩ :=
        finishMalloc_eq (c := z.cpu) hs.reserve hmore.le rfl hsize.1 hk hindex.symm
      rw [heq]
      apply h.refill
      · intro y hy
        cases hy
        exact hsame.cpu
      · intro zone' _ y _ _ _ _
        rw [hphase]
        rfl
      · intro y hy _
        cases hy
        rw [hfree]
        exact ne_of_gt hmore
    · apply h.change
      · intro y hy
        cases hy
        rfl
      · intro zone' hne y _ _ _ _
        rw [hphase]
        exact phase_of_ne rfl hne.symm
      · intro y hy _ _
        rw [phase_of_work rfl]
        trivial
    · have hzero : z.nFree - 1 = 0 := by
        simp only [not_lt] at hmore
        omega
      exact absurd hzero hlast
  | nil =>
    cases hfree : (s.slgd c).freeZones with
    | cons zone rest =>
      have hmem : zone ∈ (s.slgd c).freeZones := by
        rw [hfree]
        exact List.mem_cons_self
      rw [hinv.mem_free] at hmem
      obtain ⟨z, hz, hmagic, _⟩ := hmem
      simp only [hz]
      refine h.newZone hop hop hsize hk (hinv.unused zone ?_)
      intro y hy
      rw [hz] at hy
      cases hy
      exact hmagic
    | nil =>
      refine h.setSlgd ?_
      intro zone z _ _ _ _
      rw [hphase]
      exact phase_of_none hop

theorem Guarded.kfreeLocal
    (hinv : Inv cfg s) {l : Live C} (hop : (s.slgd z.cpu).op = none)
    (hz : (s.slot zone).header = some z) (hmagic : z.magic = true) (hl : l ∈ (s.slot zone).live) :
    Guarded (s.kfreeLocal z.cpu zone z l) := by
  have hafter := hinv.kfreeLocal hop hz hmagic hl
  obtain ⟨_, L, R, hs⟩ := hinv.zone zone z hz hmagic
  rw [flight_of_none hop] at hs
  have hnonneg : 0 ≤ z.nFree := hs.nFree_nonneg
  simp only [State.kfreeLocal] at hafter ⊢
  split at hafter
  · exact (fail_not_inv hafter).elim
  · next g y hcheck =>
      apply h.refill
      · intro y' hy
        cases hy
        have hcpu := checkZoneFree_cpu hcheck
        exact hcpu
      · intro zone' _ y' _ _ _ _
        rw [phase_of_none hop]
        apply phase_of_none
        rw [checkZoneFree_op hcheck]
        split_ifs <;> exact hop
      · intro y' hy hy'
        cases hy
        rw [checkZoneFree_header hcheck hy']
        change z.nFree + 1 ≠ 0
        omega

theorem Guarded.kfree (hinv : Inv cfg s) (hl : l ∈ (s.slot zone).live)
    (hop : (s.slot zone).header.any (fun z => z.cpu = c) → (s.slgd c).op = none) :
    Guarded (s.kfree c zone l) := by
  obtain ⟨z, hz, hmagic⟩ := hinv.inUse_of_live hl
  have hkup := (hinv.zone zone z hz hmagic).1
  have hgood : ¬ (z.kup = none ∨ z.magic = false) := by
    rw [hkup, hmagic]
    simp
  simp only [State.kfree, hz, if_neg hgood]
  split_ifs with hcpu
  · subst hcpu
    exact h.kfreeLocal hinv (hop (by rw [hz]; simp)) hz hmagic hl
  · refine h.setSlot hz hmagic rfl rfl rfl ?_
    intro phase hguard
    refine hguard.mono rfl rfl id ?_ ?_
    · intro _ hquiet u hu
      rcases mem_cons.mp hu with rfl | hu
      · rfl
      · exact hquiet u hu
    · intro _ _ hne hsignalled
      rcases hsignalled hne with hmessage | ⟨u, hu, hu'⟩
      · exact .inl hmessage
      · exact .inr ⟨u, mem_cons_of_mem hu, hu'⟩

theorem Guarded.kfreeRemote (hinv : Inv cfg s)
    (hop : (s.slgd c).op = none) (hc : c ∈ (s.slot zone).messages) :
    Guarded (s.kfreeRemote c zone) := by
  have hafter := hinv.kfreeRemote hop hc
  obtain ⟨z, hz, hmagic⟩ := hinv.inUse_of_message hc
  simp only [State.kfreeRemote, hz] at hafter ⊢
  split_ifs at hafter ⊢ with hgood
  · apply h.change
    · intro y hy
      cases hy
      exact hgood.2.2.2
    · intro zone' hne y _ _ _ _
      rw [phase_of_none hop]
      exact phase_of_ne rfl hne.symm
    · intro y hy _ hempty
      cases hy
      have hguard := h zone z hz hmagic hempty
      rw [hgood.2.2.2, phase_of_none hop] at hguard
      rw [phase_of_work rfl]
      exact ⟨hguard.signal, hguard.quiet⟩
  · exact (fail_not_inv hafter).elim

theorem Guarded.proceed (hop : (s.slgd z.cpu).op = some (.work kind zone pc))
    (hz : (s.slot zone).header = some z) (hmagic : z.magic = true) (hheader : σ.header = some z')
    (hcpu : z'.cpu = z.cpu) (hfree : z'.nFree = 0 → z.nFree = 0)
    (hguard : z.nFree = 0 → Guard (some (kind, pc)) z (s.slot zone) →
      z'.nFree = 0 → Guard (some (kind, pc')) z' σ) :
    Guarded ((s.setSlot zone σ).setOp z.cpu (some (.work kind zone pc'))) := by
  apply h.change
  · intro y hy
    rw [hheader] at hy
    cases hy
    exact hcpu
  · intro zone' hne y _ _ _ _
    rw [phase_of_ne hop hne.symm]
    exact phase_of_ne rfl hne.symm
  · intro y hy _ hempty
    rw [hheader] at hy
    cases hy
    have hbefore := h zone z hz hmagic (hfree hempty)
    rw [phase_of_work hop] at hbefore
    rw [phase_of_work rfl]
    exact hguard (hfree hempty) hbefore hempty

theorem Guarded.settleMalloc (hinv : Inv cfg s)
    (hop : (s.slgd z.cpu).op = some (.work (.malloc size k) zone .settle))
    (hz : (s.slot zone).header = some z) (hmagic : z.magic = true) :
    Guarded (s.settle z.cpu (.malloc size k) zone z) := by
  obtain ⟨_, L, R, hs⟩ := hinv.zone zone z hz hmagic
  rw [flight_of_work hop (by simp)] at hs
  obtain ⟨y, hy, _, _, hsize, hk, hindex, hnonneg, _⟩ := hinv.busy z.cpu _ zone _ hop
  rw [hz] at hy
  cases hy
  by_cases hempty : z.nFree = 0
  · obtain ⟨z', p, heq, hsame, hfree, hchunks, hsignal, _⟩ :=
      finishMalloc_eq (s := s.setSlgd z.cpu ((s.slgd z.cpu).setAry k.index
          (zoneNext zone ((s.slgd z.cpu).zoneAry k.index)))) (c := z.cpu)
        hs hnonneg rfl hsize hk hindex
    simp only [State.settle, if_pos hempty, heq]
    simp only [State.setOp, State.setSlgd, State.setSlot, update_idem, update_self]
    apply h.change
    · intro y hy
      cases hy
      exact hsame.cpu
    · intro zone' hne y _ _ _ _
      rw [phase_of_ne hop hne.symm]
      rfl
    · intro y hy _ _
      cases hy
      have hguard := h zone z hz hmagic hempty
      rw [phase_of_work hop] at hguard
      refine Armed.mk (hsignal.trans hguard.signal) hguard.quiet ?_
      intro hne
      rw [hsame.cpu]
      rw [hchunks] at hne
      exact hguard.signalled hne
  · have hquiet : Sound cfg (s.slot zone) { z with rSignal := false } 1 L R := { hs with }
    obtain ⟨z', p, heq, hsame, hfree, _⟩ :=
      finishMalloc_eq (c := z.cpu) hquiet hnonneg rfl hsize hk hindex
    simp only [State.settle, if_neg hempty, heq]
    apply h.refill
    · intro y hy
      cases hy
      exact hsame.cpu
    · intro zone' hne y _ _ _ _
      rw [phase_of_ne hop hne.symm]
      rfl
    · intro y hy _
      cases hy
      rw [hfree]
      exact hempty

theorem Guarded.settleRemote (hinv : Inv cfg s) {nfree : ℤ}
    (hop : (s.slgd z.cpu).op = some (.work (.remote nfree) zone .settle))
    (hz : (s.slot zone).header = some z) (hmagic : z.magic = true) :
    Guarded (s.settle z.cpu (.remote nfree) zone z) := by
  have hafter := hinv.settleRemote hop hz hmagic
  simp only [settle] at hafter ⊢
  split at hafter
  · exact (fail_not_inv hafter).elim
  · next g y hcheck =>
      apply h.change
      · intro y' hy
        cases hy
        exact checkZoneFree_cpu hcheck
      · intro zone' hne y' _ _ _ _
        rw [phase_of_ne hop hne.symm]
        rfl
      · intro y' hy hy' hempty
        cases hy
        obtain rfl := checkZoneFree_header hcheck hy'
        have hguard := h zone y hz hmagic hempty
        rw [phase_of_work hop] at hguard
        exact Armed.mk hguard.signal hguard.quiet hguard.signalled

theorem Guarded.settleCleanup (hinv : Inv cfg s) {i : ℕ}
    (hop : (s.slgd z.cpu).op = some (.work (.cleanup i) zone .settle))
    (hz : (s.slot zone).header = some z) (hmagic : z.magic = true) :
    Guarded (s.settle z.cpu (.cleanup i) zone z) := by
  have hafter := hinv.settleCleanup hop hz hmagic
  obtain ⟨y, hy, _, _, _, hpos⟩ := hinv.busy z.cpu _ zone _ hop
  rw [hz] at hy
  cases hy
  have hnoFlight : ∀ zone', (s.slgd z.cpu).flight zone' = none := by
    intro zone'
    simp only [SLGlobalData.flight, hop]
  simp only [settle] at hafter ⊢
  split at hafter
  · exact (fail_not_inv hafter).elim
  · next g y hcheck =>
      apply h.refill
      · intro y' hy
        cases hy
        exact checkZoneFree_cpu hcheck
      · intro zone' hne y' hy' htrue hcpu hempty
        rw [phase_of_ne hop hne.symm]
        -- The zone that is looked at next has free chunks.
        apply phase_eq_none
        intro kind pc hwork
        simp only [some.injEq] at hwork
        split at hwork
        · simp at hwork
        · next zone'' rest hnext =>
            simp only [Op.work.injEq] at hwork
            obtain ⟨_, rfl, _⟩ := hwork
            have hmem := (zoneNext_mem (hinv.ary_nodup z.cpu i) hnext).1
            rw [hinv.mem_ary, hnoFlight] at hmem
            obtain ⟨x, hx, _, _, _, hlisted⟩ := hmem
            rw [hy'] at hx
            cases hx
            replace hlisted : 0 < y'.nFree := hlisted
            omega
      · intro y' hy hy'
        cases hy
        rw [checkZoneFree_header hcheck hy']
        exact hpos.ne'

theorem Guarded.advance (hinv : Inv cfg s) (hop : (s.slgd c).op = some op)
    (hlock : s.Interlocked (.advance c)) : Guarded (s.advance c op) := by
  cases op with
  | scan i =>
    have hnoFlight : ∀ zone, (s.slgd c).flight zone = none := by
      intro zone
      simp only [SLGlobalData.flight, hop]
    have hphase : ∀ zone, (s.slgd c).phase zone = none := by
      intro zone
      simp only [SLGlobalData.phase, hop]
    have hgoto : ∀ op', (∀ kind zone pc, op' = some (.work kind zone pc) →
        ∃ j, zone ∈ (s.slgd c).zoneAry j) → Guarded (s.setOp c op') := by
      intro op' hop'
      apply h.setSlgd
      intro zone z hz _ _ hempty
      rw [hphase]
      apply phase_eq_none
      intro kind pc hwork
      obtain ⟨j, hmem⟩ := hop' kind zone pc hwork
      rw [hinv.mem_ary, hnoFlight] at hmem
      obtain ⟨y, hy, _, _, _, hlisted⟩ := hmem
      rw [hz] at hy
      cases hy
      replace hlisted : 0 < z.nFree := hlisted
      omega
    simp only [State.advance]
    split_ifs with hi
    · split
      · next first zone rest heq =>
          apply hgoto
          intro kind zone' pc hwork
          simp only [some.injEq, Op.work.injEq] at hwork
          obtain ⟨_, rfl, _⟩ := hwork
          refine ⟨i, ?_⟩
          rw [heq]
          simp
      · apply hgoto
        intro kind zone pc hwork
        simp at hwork
    · apply hgoto
      intro kind zone pc hwork
      simp at hwork
  | work kind zone pc =>
    obtain ⟨z, hz, hmagic, rfl, hworking⟩ := hinv.busy c kind zone pc hop
    have hgoto : ∀ pc', (z.nFree = 0 → Guard (some (kind, pc)) z (s.slot zone) →
        Guard (some (kind, pc')) z (s.slot zone)) →
        Guarded (s.setOp z.cpu (some (.work kind zone pc'))) := by
      intro pc' hguard
      have hstay : s.setSlot zone (s.slot zone) = s := by
        simp [State.setSlot]
      have hmove : Guarded ((s.setSlot zone (s.slot zone)).setOp z.cpu
          (some (.work kind zone pc'))) :=
        h.proceed hop hz hmagic hz rfl id (fun hempty hbefore _ => hguard hempty hbefore)
      rw [hstay] at hmove
      exact hmove
    have hcleanup : ∀ i, kind = .cleanup i → z.nFree ≠ 0 := by
      rintro i rfl
      exact hworking.2.ne'
    simp only [State.advance, hz]
    cases pc with
    | test =>
      cases kind with
      | malloc size k =>
        apply hgoto
        intro _ _
        split_ifs with hnone
        · trivial
        · exact .inl hnone
      | remote nfree =>
        apply hgoto
        intro _ hset
        split_ifs with hnone
        · exact .inr hset
        · exact hnone
      | cleanup i =>
        apply hgoto
        intro hempty _
        exact absurd hempty (hcleanup i rfl)
    | signal =>
      cases kind with
      | malloc size k =>
        simp only [State.Interlocked, hop] at hlock
        refine h.proceed hop hz hmagic rfl rfl id ?_
        intro _ _ _
        exact .inr ⟨rfl, hlock⟩
      | remote nfree =>
        refine h.proceed hop hz hmagic rfl rfl id ?_
        intro _ hchunks _
        exact .inl hchunks
      | cleanup i =>
        apply hgoto
        intro hempty _
        exact absurd hempty (hcleanup i rfl)
    | read =>
      simp only
      split
      · next hnone =>
          apply hgoto
          intro _ hread
          have hset : z.rSignal = true ∧ (s.slot zone).Quiet := by
            cases kind <;> exact hread.resolve_left (fun hne => hne hnone)
          have harmed : Armed z (s.slot zone) := ⟨hset.1, hset.2, fun hne => absurd hnone hne⟩
          cases kind <;> exact harmed
      · next bchunk hsome =>
          apply hgoto
          intro _ _
          have hne : z.rChunks ≠ none := by
            rw [hsome]
            simp
          cases kind <;> exact hne
    | swap bchunk =>
      simp only
      split_ifs with hb
      · obtain ⟨_, L, R, hs⟩ := hinv.zone zone z hz hmagic
        obtain ⟨z', hdrain, hsame, hfree, hpos, _⟩ := hs.drain hb
        have hnonneg : 0 ≤ z.nFree := by
          cases kind with
          | malloc size k => exact hworking.2.2.2.1
          | remote nfree => exact hworking.1.trans hworking.2
          | cleanup i => exact hworking.2.le
        simp only [hdrain]
        refine h.proceed hop hz hmagic rfl hsame.cpu ?_ ?_
        · intro hempty
          omega
        · intro _ _ hempty
          omega
      · apply hgoto
        intro _ hswap
        have hne : z.rChunks ≠ none := by
          cases kind <;> exact hswap
        cases kind <;> exact .inl hne
    | settle =>
      cases kind with
      | malloc size k => exact h.settleMalloc hinv hop hz hmagic
      | remote nfree => exact h.settleRemote hinv hop hz hmagic
      | cleanup i => exact h.settleCleanup hinv hop hz hmagic

theorem Guarded.next (hinv : Inv cfg s) {e : Event C} (hlock : s.Interlocked e)
    (hnext : s.next cfg e = some s') : Guarded s' := by
  unfold State.next at hnext
  split_ifs at hnext with hallowed
  cases hnext
  have henabled := hallowed.2
  cases e with
  | kmalloc c size => exact h.kmalloc hinv henabled.1 henabled.2
  | slabAllocated c size zone =>
    have hop : (s.slgd c).op = none := henabled.1
    have hnone : (s.slot zone).header = none := isNone_iff_eq_none.mp henabled.2.2
    have hzoned := hinv.blocked c size henabled.2.1
    obtain ⟨k, hk⟩ := zoneindex_isSome hzoned
    simp only [State.perform, State.slabAllocated, hk]
    refine h.newZone hop hop hzoned hk (hinv.unused zone ?_)
    intro z hz
    rw [hnone] at hz
    simp at hz
  | slabAllocFailed c size =>
    apply h.setSlgd
    intro zone z _ _ _ _
    rfl
  | release c =>
    have hop : (s.slgd c).op = none := henabled.1
    have hafter := hinv.release hop henabled.2
    simp only [State.perform] at hafter ⊢
    split at hafter
    · exact (fail_not_inv hafter).elim
    · apply h.refill
      · intro z hz
        simp at hz
      · intro zone' _ z _ _ _ _
        rfl
      · intro z hz
        simp at hz
  | kfree c zone l => exact h.kfree hinv henabled.1 henabled.2
  | remote zone t => exact h.remoteStep hinv henabled
  | kfreeRemote c zone => exact h.kfreeRemote hinv henabled.1 henabled.2
  | slabCleanup c =>
    have hop : (s.slgd c).op = none := henabled
    apply h.setSlgd
    intro zone z _ _ _ _
    rw [phase_of_none hop]
    rfl
  | advance c =>
    obtain ⟨op, hop⟩ := isSome_iff_exists.mp henabled
    simp only [State.perform, hop]
    exact h.advance hinv hop hlock
  | store zone l v =>
    obtain ⟨z, hz, hmagic⟩ := hinv.inUse_of_live henabled
    simp only [State.perform, hz]
    refine h.setSlot hz hmagic rfl rfl rfl ?_
    intro phase hguard
    exact hguard.mono rfl rfl id (fun _ hquiet => hquiet) (fun _ _ hne hsig => hsig hne)

end

end Steps

section Runs

variable {C : Type} [DecidableEq C]

/-- Runs in which the owner and the other cpus do not meet on `z_RSignal`. -/
def State.ReachedInterlocked (cfg : Config) : State C → Prop :=
  Reachable (fun s => s = State.initial) State.Interlocked (State.next cfg)

theorem State.notStranded_of_interlocked
    {cfg : Config} {s : State C} (h : s.ReachedInterlocked cfg) : s.NotStranded := by
  have hboth : Inv cfg s ∧ Guarded s := by
    refine Reachable.invariant (fun s => Inv cfg s ∧ Guarded s) ?_ ?_ h
    · rintro s rfl
      refine ⟨inv_initial cfg, ?_⟩
      intro zone z hz
      simp [initial] at hz
    · rintro s e s' ⟨hinv, hguarded⟩ hlock hnext
      exact ⟨hinv.next hnext, hguarded.next hinv hlock hnext⟩
  exact hboth.2.notStranded

end Runs

instance {C : Type} (σ : Slot C) : Decidable σ.Quiet :=
  inferInstanceAs (Decidable (∀ t ∈ σ.tasks, t.pc.silent = false))

instance {C : Type} (s : State C) : (e : Event C) → Decidable (s.Interlocked e)
  | .advance c => by
    unfold State.Interlocked
    dsimp only
    split <;> infer_instance
  | .kmalloc .. | .slabAllocated .. | .slabAllocFailed .. | .release .. | .kfree ..
  | .remote .. | .kfreeRemote .. | .slabCleanup .. | .store .. => instDecidableTrue

/-- Cpu `false` takes the last chunk of the zone and finds none of other cpus. -/
def takeLast : List (Event Bool) :=
  .kmalloc false 8000 :: List.replicate 4 (.advance false)

/-- What there is to see of the zone and of the cpu that owns it. -/
structure ZoneView where
  magic : Bool
  cpu : Bool
  nFree : ℤ
  zoneIndex : ℕ
  rChunks : Option ℕ
  tasks : Multiset Task
  messages : Multiset Bool
  op : Option Op
  zoneAry : List ℕ
  deriving DecidableEq

def zoneView (s : State Bool) : Option ZoneView :=
  (s.slot 5).header.map fun z =>
    ⟨z.magic, z.cpu, z.nFree, z.zoneIndex, z.rChunks, (s.slot 5).tasks, (s.slot 5).messages,
      (s.slgd false).op, (s.slgd false).zoneAry 63⟩

/-- The zone is empty when cpu `true` frees a chunk of it: the message is queued. -/
theorem notStranded_after_signal :
    ∃ s : State Bool, s.ReachedInterlocked smallConfig ∧
      zoneView s = some ⟨true, false, 0, 63, some 8192, 0, {false}, none, []⟩ ∧ s.NotStranded := by
  have hrun : ((runEvents State.Interlocked (next smallConfig) (initial : State Bool)
      (twoChunks ++ takeLast ++ [.kfree true 5 ⟨false, 8192, 8000⟩] ++
        remoteSteps 8192 [.sample, .retain, .read true, .link true none, .signal])).bind zoneView) =
      some ⟨true, false, 0, 63, some 8192, 0, {false}, none, []⟩ := by
    decide +kernel
  rw [bind_eq_some_iff] at hrun
  obtain ⟨s, hs, hview⟩ := hrun
  have hstart : (initial : State Bool).ReachedInterlocked smallConfig := .start rfl
  have hreached : s.ReachedInterlocked smallConfig := hstart.run hs
  exact ⟨s, hreached, hview, notStranded_of_interlocked hreached⟩

/-- Cpu `true` reads `z_RSignal` before cpu `false` takes the last chunk, and links its
chunk afterwards.  Nobody tells cpu `false`. -/
theorem stranded_after_race : ∃ s : State Bool, s.Reached smallConfig ∧ ¬ s.NotStranded := by
  have hrun : ((runEvents (fun _ _ => True) (next smallConfig) (initial : State Bool)
      (twoChunks ++ [.kfree true 5 ⟨false, 8192, 8000⟩] ++ remoteSteps 8192 [.sample] ++
        takeLast ++ remoteSteps 8192 [.read false, .link false none])).bind zoneView) =
      some ⟨true, false, 0, 63, some 8192, 0, 0, none, []⟩ := by
    decide +kernel
  rw [bind_eq_some_iff] at hrun
  obtain ⟨s, hs, hview⟩ := hrun
  have hstart : (initial : State Bool).Reached smallConfig := .start rfl
  refine ⟨s, hstart.run hs, ?_⟩
  intro hsafe
  simp only [zoneView, ZoneView.mk.injEq, map_eq_some_iff] at hview
  obtain ⟨z, hz, hmagic, hcpu, hfree, hindex, hchunks, htasks, hmessages, hop, hlist⟩ := hview
  have hmessage := hsafe 5 z hz hmagic (by rw [hcpu, hindex, hlist]; simp) hfree
    (by rw [hchunks]; simp) htasks (by rw [hcpu, hop]; simp)
  rw [hmessages] at hmessage
  exact notMem_zero _ hmessage

end DragonFly.Slab
