import DragonFly.SlabInvariant

/-!
# The steps of the slab allocator keep its invariant

First what the other cpus do, then the operations of the owner.
-/

namespace DragonFly.Slab

open Function Multiset SLZone

variable {C : Type} {cfg : Config} {s : State C} {c : C} {zone : ℕ}

theorem Inv.inUse (h : Inv cfg s) (hunused : ¬ (s.slot zone).Unused) :
    ∃ z, (s.slot zone).header = some z ∧ z.magic = true := by
  by_contra hnone
  apply hunused
  apply h.unused
  intro z hz
  cases hmagic : z.magic with
  | false => rfl
  | true => exact absurd ⟨z, hz, hmagic⟩ hnone

variable {t : Task} {l : Live C} {z z' : SLZone C} {L R : List ℕ} {σ : Slot C} {g : SLGlobalData}
  {pc : Pc} {kind : Kind}

theorem Inv.inUse_of_task (h : Inv cfg s) (ht : t ∈ (s.slot zone).tasks) :
    ∃ z, (s.slot zone).header = some z ∧ z.magic = true := by
  apply h.inUse
  intro hunused
  rw [hunused.2.1] at ht
  exact notMem_zero t ht

theorem Inv.inUse_of_live (h : Inv cfg s) (hl : l ∈ (s.slot zone).live) :
    ∃ z, (s.slot zone).header = some z ∧ z.magic = true := by
  apply h.inUse
  intro hunused
  rw [hunused.1] at hl
  exact notMem_zero l hl

theorem Inv.inUse_of_message (h : Inv cfg s) (hc : c ∈ (s.slot zone).messages) :
    ∃ z, (s.slot zone).header = some z ∧ z.magic = true := by
  apply h.inUse
  intro hunused
  rw [hunused.2.2] at hc
  exact notMem_zero c hc

theorem Inv.mem_ary_iff
    (h : Inv cfg s) (hz : (s.slot zone).header = some z) (hmagic : z.magic = true) (i : ℕ) :
    zone ∈ (s.slgd z.cpu).zoneAry i ↔
      z.zoneIndex = i ∧ Listed ((s.slgd z.cpu).flight zone) z.nFree := by
  rw [h.mem_ary]
  constructor
  · rintro ⟨y, hy, _, _, hindex, hlisted⟩
    rw [hz] at hy
    cases hy
    exact ⟨hindex, hlisted⟩
  · rintro ⟨hindex, hlisted⟩
    exact ⟨z, hz, hmagic, rfl, hindex, hlisted⟩

theorem Sound.nFree_nonneg (h : Sound cfg σ z 0 L R) : 0 ≤ z.nFree := by
  have hcount := h.count
  omega

theorem checkZoneFree_op (h : g.checkZoneFree zone z = some (g', y)) : g'.op = g.op := by
  simp only [SLGlobalData.checkZoneFree] at h
  split_ifs at h
  all_goals
    simp only [Option.some.injEq, Prod.mk.injEq] at h
    obtain ⟨rfl, _⟩ := h
    rfl

theorem Same.refl (z : SLZone C) : Same z z := ⟨rfl, rfl, rfl, rfl, rfl⟩

variable [DecidableEq C]

/-! ## Other cpus -/

section

variable (h : Inv cfg s) (ht : t ∈ (s.slot zone).tasks)
include h ht

theorem Inv.moveTask {pc : FreePc}
    (hz : (s.slot zone).header = some z) (hmagic : z.magic = true) (hholds : pc.holds = t.pc.holds)
    (hcount : r + (if t.pc.retains = true then 1 else 0) =
      z.rCount + if pc.retains = true then 1 else 0)
    (hlink : ∀ rsignal bchunk, pc = .link rsignal bchunk → z.cNext t.chunk = bchunk) :
    Inv cfg (s.setSlot zone
      ⟨some { z with rCount := r }, ⟨t.chunk, pc⟩ ::ₘ (s.slot zone).tasks.erase t,
        (s.slot zone).messages, (s.slot zone).live, (s.slot zone).used⟩) := by
  refine h.remote hz hmagic rfl ⟨rfl, rfl, rfl, rfl, rfl⟩ rfl ?_
  intro taken L R hs
  refine ⟨L, R, hs.recount _ (heldBy_move ht hholds) ?_ ?_ hs.sent⟩
  · have hrefs := hs.refs
    simp only [Slot.refs, retainedBy_erase ht] at hrefs
    rw [retainedBy_cons]
    split_ifs at hrefs hcount ⊢ <;> push_cast at hrefs ⊢ <;> omega
  · intro u hu rsignal bchunk hpc
    rcases mem_cons.mp hu with rfl | hu
    · exact hlink rsignal bchunk hpc
    · exact hs.linked u (mem_of_mem_erase hu) rsignal bchunk hpc

theorem Inv.endTask
    (hz : (s.slot zone).header = some z) (hmagic : z.magic = true) (hholds : t.pc.holds = false)
    (hretains : t.pc.retains = true)
    (hsent : ∀ c ∈ messages, c = z.cpu ∨ c ∈ (s.slot zone).messages)
    (hcount : r + 1 + (s.slot zone).messages.card = z.rCount + messages.card) :
    Inv cfg (s.setSlot zone ⟨some { z with rCount := r }, (s.slot zone).tasks.erase t, messages,
        (s.slot zone).live, (s.slot zone).used⟩) := by
  refine h.remote hz hmagic rfl ⟨rfl, rfl, rfl, rfl, rfl⟩ rfl ?_
  intro taken L R hs
  have hnot : ¬ t.pc.holds = true := by rw [hholds]; simp
  refine ⟨L, R, hs.recount _ ?_ ?_ ?_ ?_⟩
  · rw [heldBy_erase ht, if_neg hnot]
  · have hrefs := hs.refs
    simp only [Slot.refs, retainedBy_erase ht, if_pos hretains] at hrefs
    push_cast at hrefs ⊢
    omega
  · intro u hu rsignal bchunk hpc
    exact hs.linked u (mem_of_mem_erase hu) rsignal bchunk hpc
  · intro c hc
    rcases hsent c hc with hcpu | hold
    · exact hcpu
    · exact hs.sent c hold

theorem Inv.linkTask
    (hpc : t.pc = .link rsignal z.rChunks) (hz : (s.slot zone).header = some z)
    (hmagic : z.magic = true) (hheld : heldBy tasks = heldBy ((s.slot zone).tasks.erase t))
    (hretained : retainedBy tasks = retainedBy (s.slot zone).tasks)
    (hrest : ∀ u ∈ tasks, u.pc.holds = true → u ∈ (s.slot zone).tasks) :
    Inv cfg (s.setSlot zone ⟨some { z with rChunks := some t.chunk }, tasks, (s.slot zone).messages,
        (s.slot zone).live, (s.slot zone).used⟩) := by
  refine h.remote hz hmagic rfl ⟨rfl, rfl, rfl, rfl, rfl⟩ rfl ?_
  intro taken L R hs
  refine ⟨L, t.chunk :: R, hs.link _ ht hpc hheld hretained ?_⟩
  intro u hu rs b hu'
  exact hs.linked u (hrest u hu (by rw [hu']; rfl)) rs b hu'

theorem Inv.remoteStep :
    Inv cfg (s.remoteStep zone t) := by
  obtain ⟨z, hz, hmagic⟩ := h.inUse_of_task ht
  simp only [State.remoteStep, hz]
  cases hpc : t.pc with
  | sample =>
    apply h.moveTask (z := z) (r := z.rCount) ht hz hmagic
    · rw [hpc]
      split_ifs <;> rfl
    · rw [hpc]
      split_ifs <;> simp_all
    · intro rsignal bchunk hlink
      split_ifs at hlink
  | retain =>
    apply h.moveTask ht hz hmagic
    · rw [hpc]
      rfl
    · simp [hpc]
    · intro rsignal bchunk hlink
      simp at hlink
  | read rsignal =>
    have hholds : t.pc.holds = true := by rw [hpc]; rfl
    refine h.remote hz hmagic rfl ⟨rfl, rfl, rfl, rfl, rfl⟩ rfl ?_
    intro taken L R hs
    -- The link is written to a chunk that is on no list.
    have hwrite := hs.write_handed_out z.rChunks
      (mem_add.mpr (.inr (mem_heldBy ht hholds))) (by
        intro u hu rs b hu'
        have hne : u ≠ t := by
          rintro rfl
          rw [hpc] at hu'
          simp at hu'
        have hrest : u ∈ (s.slot zone).tasks.erase t := (mem_erase_of_ne hne).mpr hu
        have hchunk := hs.held_ne ht hholds hrest (by rw [hu']; rfl)
        rw [update_of_ne hchunk]
        exact hs.linked u hu rs b hu')
    refine ⟨L, R, hwrite.recount _ (heldBy_move ht (by rw [hpc]; rfl)) ?_ ?_ hs.sent⟩
    · have hrefs := hs.refs
      simp only [Slot.refs, retainedBy_erase ht, hpc] at hrefs
      rw [retainedBy_cons]
      exact hrefs
    · intro u hu rs b hu'
      rcases mem_cons.mp hu with rfl | hu
      · cases hu'
        exact update_self t.chunk z.rChunks z.cNext
      · exact hwrite.linked u (mem_of_mem_erase hu) rs b hu'
  | link rsignal bchunk =>
    by_cases heq : z.rChunks = bchunk
    · subst heq
      simp only [if_true]
      cases rsignal with
      | false =>
        apply h.linkTask ht hpc hz hmagic rfl
        · rw [retainedBy_erase ht, hpc]
          rfl
        · intro u hu _
          exact mem_of_mem_erase hu
      | true =>
        have hpc' : (if z.rChunks = none then FreePc.signal else .drop).holds = false ∧
            (if z.rChunks = none then FreePc.signal else .drop).retains = true := by
          split_ifs <;> exact ⟨rfl, rfl⟩
        apply h.linkTask ht hpc hz hmagic
        · rw [heldBy_cons, hpc'.1]
          rfl
        · rw [retainedBy_cons, retainedBy_erase ht, hpc, hpc'.2]
          rfl
        · intro u hu hu'
          rcases mem_cons.mp hu with rfl | hu
          · rw [hpc'.1] at hu'
            simp at hu'
          · exact mem_of_mem_erase hu
    · simp only [if_neg heq]
      apply h.moveTask (z := z) (r := z.rCount) ht hz hmagic
      · rw [hpc]
        rfl
      · rw [hpc]
        rfl
      · intro rs b hlink
        simp at hlink
  | signal =>
    apply h.endTask (z := z) (r := z.rCount) ht hz hmagic
    · rw [hpc]
      rfl
    · rw [hpc]
      rfl
    · intro c hc
      exact mem_cons.mp hc
    · rw [card_cons]
      push_cast
      omega
  | drop =>
    apply h.endTask ht hz hmagic
    · rw [hpc]
      rfl
    · rw [hpc]
      rfl
    · intro c hc
      exact .inr hc
    · omega

end

theorem Inv.store (h : Inv cfg s) (hl : l ∈ (s.slot zone).live) (v : Option ℕ) :
    Inv cfg (s.perform cfg (.store zone l v)) := by
  obtain ⟨z, hz, hmagic⟩ := h.inUse_of_live hl
  simp only [State.perform, hz]
  refine h.remote hz hmagic rfl ⟨rfl, rfl, rfl, rfl, rfl⟩ rfl ?_
  intro taken L R hs
  have hmem : l.chunk ∈ (s.slot zone).live.map Live.chunk := mem_map_of_mem _ hl
  have hwrite := hs.write_handed_out v (mem_add.mpr (.inl hmem)) (by
    intro t ht rs b hpc
    have hne : t.chunk ≠ l.chunk := by
      intro heq
      apply hs.live_not_held hmem
      rw [← heq]
      exact mem_heldBy ht (by rw [hpc]; rfl)
    rw [update_of_ne hne]
    exact hs.linked t ht rs b hpc)
  exact ⟨L, R, { hwrite with }⟩

/-! ## The owner -/

theorem flight_of_none (hop : g.op = none) : g.flight zone = none := by
  simp only [SLGlobalData.flight, hop]

theorem flight_of_ne (hop : g.op = some (.work kind zone' pc)) (hne : zone' ≠ zone) :
    g.flight zone = none := by
  cases kind <;> simp only [SLGlobalData.flight, hop, if_neg hne]

theorem Inv.start (h : Inv cfg s) (hop : (s.slgd z.cpu).op = none)
    (hz : (s.slot zone).header = some z) (hmagic : z.magic = true)
    (hheader : σ.header = some z') (hsame : Same z z') (hsound : ∃ L R, Sound cfg σ z'
      (takenBy ({ s.slgd z.cpu with op := some (.work kind zone pc) }.flight zone)) L R)
    (hlisted : Listed ({ s.slgd z.cpu with op := some (.work kind zone pc) }.flight zone) z'.nFree ↔
      0 < z.nFree)
    (hworking : Working (s.slgd z.cpu) kind zone z') :
    Inv cfg ((s.setSlot zone σ).setOp z.cpu (some (.work kind zone pc))) := by
  apply h.keep hz hmagic hheader hsame hsound
  · rw [hlisted, flight_of_none hop]
    rfl
  · intro zone' hne
    rw [flight_of_none hop]
    exact flight_of_ne rfl hne.symm
  · intro kind' zone' pc' heq
    cases heq
    rw [update_self]
    exact ⟨z', hheader, hsame.magic.trans hmagic, hsame.cpu, hworking⟩

theorem Inv.proceed (h : Inv cfg s) (hop : (s.slgd z.cpu).op = some (.work kind zone pc))
    (hz : (s.slot zone).header = some z) (hmagic : z.magic = true) (hheader : σ.header = some z')
    (hsame : Same z z') (hfree : z.nFree ≤ z'.nFree)
    (hsound : ∀ taken L R, Sound cfg (s.slot zone) z taken L R →
      ∃ L' R', Sound cfg σ z' taken L' R') :
    Inv cfg ((s.setSlot zone σ).setOp z.cpu (some (.work kind zone pc'))) := by
  obtain ⟨_, L, R, hzone⟩ := h.zone zone z hz hmagic
  obtain ⟨y, hy, _, _, hworking⟩ := h.busy z.cpu kind zone pc hop
  rw [hz] at hy
  cases hy
  have hflight : ∀ zone', { s.slgd z.cpu with op := some (.work kind zone pc') }.flight zone' =
      (s.slgd z.cpu).flight zone' := by
    intro zone'
    cases kind <;> simp only [SLGlobalData.flight, hop]
  apply h.keep hz hmagic hheader hsame
  · rw [hflight]
    exact hsound _ L R hzone
  · rw [hflight]
    cases kind with
    | malloc size k | remote nfree => simp [SLGlobalData.flight, hop, Listed]
    | cleanup i =>
      have hpos : 0 < z.nFree := hworking.2
      simp only [SLGlobalData.flight, hop, Listed]
      exact iff_of_true (by omega) hpos
  · intro zone' _
    exact hflight zone'
  · intro kind' zone' pc'' heq
    cases heq
    rw [update_self]
    refine ⟨z', hheader, hsame.magic.trans hmagic, hsame.cpu, ?_⟩
    cases kind with
    | malloc size k =>
      obtain ⟨hsize, hk, hindex, hnonneg, hhead⟩ := hworking
      exact ⟨hsize, hk, hindex.trans hsame.zoneIndex.symm, by omega, hhead⟩
    | remote nfree => exact ⟨hworking.1, hworking.2.trans hfree⟩
    | cleanup i => exact ⟨hsame.zoneIndex.trans hworking.1, by have := hworking.2; omega⟩

theorem Inv.relist (h : Inv cfg s) (hz : (s.slot zone).header = some z) (hmagic : z.magic = true)
    (hsame : Same z z') (hs : Sound cfg σ z' 0 L R)
    (hflight : ∀ zone', zone' ≠ zone → (s.slgd z.cpu).flight zone' = none)
    (hop : ∀ zone', { g with op := op }.flight zone' = none) (hnodup : ∀ i, (g.zoneAry i).Nodup)
    (hary : ∀ i zone', zone' ≠ zone → (zone' ∈ g.zoneAry i ↔ zone' ∈ (s.slgd z.cpu).zoneAry i))
    (hmem : ∀ i, zone ∈ g.zoneAry i ↔ z'.zoneIndex = i ∧ 0 < z'.nFree)
    (hfree : g.freeZones = (s.slgd z.cpu).freeZones) (hblocked : g.blocked = (s.slgd z.cpu).blocked)
    (hbusy : ∀ kind zone' pc, op = some (.work kind zone' pc) →
      ∃ i, kind = .cleanup i ∧ zone' ≠ zone ∧ zone' ∈ g.zoneAry i) :
    ∃ g' y, g.checkZoneFree zone z' = some (g', y) ∧
      Inv cfg ((s.setSlot zone ⟨some y, σ.tasks, σ.messages, σ.live, σ.used⟩).setSlgd z.cpu
        { g' with op := op }) := by
  have hmagic' : z'.magic = true := hsame.magic.trans hmagic
  have howner : ∀ y, (s.slot zone).header = some y → y.cpu = z.cpu := by
    intro y hy
    rw [hz] at hy
    cases hy
    rfl
  have hnotFree : zone ∉ (s.slgd z.cpu).freeZones := by
    rw [h.mem_free]
    rintro ⟨y, hy, hfalse, _⟩
    rw [hz] at hy
    cases hy
    rw [hmagic] at hfalse
    simp at hfalse
  have hnext : ∀ (σ' : Slot C) kind zone' pc, op = some (.work kind zone' pc) →
      ∃ i y, kind = .cleanup i ∧ (update s.slot zone σ' zone').header = some y ∧
        y.magic = true ∧ y.cpu = z.cpu ∧ y.zoneIndex = i ∧ 0 < y.nFree := by
    intro σ' kind zone' pc hwork
    obtain ⟨i, hkind, hne, hlist⟩ := hbusy kind zone' pc hwork
    rw [hary i zone' hne, h.mem_ary] at hlist
    obtain ⟨y, hy, hy', hcpu, hindex, hlisted⟩ := hlist
    rw [hflight zone' hne] at hlisted
    rw [update_of_ne hne]
    exact ⟨i, y, hkind, hy, hy', hcpu, hindex, hlisted⟩
  unfold SLGlobalData.checkZoneFree
  by_cases hgone : z'.nFree = z'.nMax ∧ (zoneNext zone (g.zoneAry z'.zoneIndex) ≠ [] ∨
        (g.zoneAry z'.zoneIndex).head? ≠ some zone) ∧ z'.rCount = 0
  · have hpos : 0 < z'.nFree := by
      have htwo := hs.shape.two
      omega
    have hlist : zone ∈ g.zoneAry z'.zoneIndex := (hmem _).mpr ⟨rfl, hpos⟩
    rw [if_pos hgone, if_pos hlist]
    refine ⟨_, _, rfl, h.change ?_⟩
    constructor
    · exact howner
    · intro y hy
      cases hy
      exact hsame.cpu
    · intro y hy hy'
      cases hy
      simp at hy'
    · intro _
      exact hs.unused_of_full hgone.1 hgone.2.2
    · intro zone' hne
      rw [hflight zone' hne]
      exact hop zone'
    · intro i
      by_cases hi : i = z'.zoneIndex
      · subst hi
        simpa [SLGlobalData.setAry] using (hnodup _).erase zone
      · simpa [SLGlobalData.setAry, hi] using hnodup i
    · intro i zone' hne
      rw [← hary i zone' hne]
      by_cases hi : i = z'.zoneIndex
      · subst hi
        simp [SLGlobalData.setAry, List.mem_erase_of_ne hne]
      · simp [SLGlobalData.setAry, hi]
    · intro i
      refine iff_of_false ?_ ?_
      · by_cases hi : i = z'.zoneIndex
        · subst hi
          simpa [SLGlobalData.setAry] using (hnodup _).not_mem_erase
        · have hnot : zone ∉ g.zoneAry i := by
            rw [hmem]
            rintro ⟨heq, _⟩
            exact hi heq.symm
          simpa [SLGlobalData.setAry, hi] using hnot
      · rintro ⟨y, hy, hy', _⟩
        cases hy
        simp at hy'
    · simp only [hfree, List.nodup_cons]
      exact ⟨hnotFree, h.free_nodup z.cpu⟩
    · intro zone' hne
      simp only [hfree, List.mem_cons]
      exact or_iff_right hne
    · simp
    · intro kind zone' pc hwork
      obtain ⟨i, y, rfl, hy, hy', hcpu, hindex, hlisted⟩ := hnext _ kind zone' pc hwork
      exact ⟨y, hy, hy', hcpu, hindex, hlisted⟩
    · simp only [SLGlobalData.setAry, hblocked]
      exact h.blocked z.cpu
  · rw [if_neg hgone]
    refine ⟨_, _, rfl, h.change ?_⟩
    constructor
    · exact howner
    · intro y hy
      cases hy
      exact hsame.cpu
    · intro y hy _
      cases hy
      refine ⟨?_, L, R, ?_⟩
      · rw [hsame.kup]
        exact (h.zone zone z hz hmagic).1
      · rw [hop]
        exact { hs with }
    · intro hfalse
      have hy := hfalse z' rfl
      rw [hmagic'] at hy
      simp at hy
    · intro zone' hne
      rw [hflight zone' hne]
      exact hop zone'
    · exact hnodup
    · exact hary
    · intro i
      rw [hop, hmem]
      constructor
      · rintro ⟨hindex, hpos⟩
        exact ⟨z', rfl, hmagic', hindex, hpos⟩
      · rintro ⟨y, hy, _, hindex, hpos⟩
        cases hy
        exact ⟨hindex, hpos⟩
    · simp only [hfree]
      exact h.free_nodup z.cpu
    · intro zone' _
      simp only [hfree]
    · simp only [hfree]
      refine iff_of_false hnotFree ?_
      rintro ⟨y, hy, hfalse⟩
      cases hy
      rw [hmagic'] at hfalse
      simp at hfalse
    · intro kind zone' pc hwork
      obtain ⟨i, y, rfl, hy, hy', hcpu, hindex, hlisted⟩ := hnext _ kind zone' pc hwork
      exact ⟨y, hy, hy', hcpu, hindex, hlisted⟩
    · simp only [hblocked]
      exact h.blocked z.cpu

theorem setAry_push (i₀ : ℕ) (hnodup : ∀ i, (g.zoneAry i).Nodup) (hnot : ∀ i, zone ∉ g.zoneAry i) :
    (∀ i, ((g.setAry i₀ (zone :: g.zoneAry i₀)).zoneAry i).Nodup) ∧ (∀ i zone', zone' ≠ zone →
        (zone' ∈ (g.setAry i₀ (zone :: g.zoneAry i₀)).zoneAry i ↔ zone' ∈ g.zoneAry i)) ∧
      ∀ i, zone ∈ (g.setAry i₀ (zone :: g.zoneAry i₀)).zoneAry i ↔ i₀ = i := by
  have hself : (g.setAry i₀ (zone :: g.zoneAry i₀)).zoneAry i₀ = zone :: g.zoneAry i₀ := by
    simp [SLGlobalData.setAry]
  have hother : ∀ i, i ≠ i₀ → (g.setAry i₀ (zone :: g.zoneAry i₀)).zoneAry i = g.zoneAry i := by
    intro i hi
    simp [SLGlobalData.setAry, hi]
  refine ⟨?_, ?_, ?_⟩
  · intro i
    by_cases hi : i = i₀
    · subst hi
      rw [hself]
      exact List.nodup_cons.mpr ⟨hnot i, hnodup i⟩
    · rw [hother i hi]
      exact hnodup i
  · intro i zone' hne
    by_cases hi : i = i₀
    · subst hi
      rw [hself, List.mem_cons, or_iff_right hne]
    · rw [hother i hi]
  · intro i
    by_cases hi : i = i₀
    · subst hi
      rw [hself]
      exact iff_of_true List.mem_cons_self rfl
    · rw [hother i hi]
      exact iff_of_false (hnot i) (Ne.symm hi)

theorem Inv.kfreeLocal (h : Inv cfg s) (hop : (s.slgd z.cpu).op = none)
    (hz : (s.slot zone).header = some z) (hmagic : z.magic = true) (hl : l ∈ (s.slot zone).live) :
    Inv cfg (s.kfreeLocal z.cpu zone z l) := by
  obtain ⟨_, L, R, hs⟩ := h.zone zone z hz hmagic
  rw [flight_of_none hop] at hs
  have hnonneg : 0 ≤ z.nFree := hs.nFree_nonneg
  have hlist := h.mem_ary_iff hz hmagic
  simp only [flight_of_none hop] at hlist
  have hfreed := hs.freeChunk hl none
  have hnoFlight : ∀ zone', (s.slgd z.cpu).flight zone' = none := fun _ => flight_of_none hop
  -- The lists once the zone is back on its own.
  have hback : ∃ g, (if z.nFree = 0 then
        (s.slgd z.cpu).setAry z.zoneIndex (zone :: (s.slgd z.cpu).zoneAry z.zoneIndex)
      else s.slgd z.cpu) = g ∧ g.op = none ∧
      (∀ i, (g.zoneAry i).Nodup) ∧
      (∀ i zone', zone' ≠ zone → (zone' ∈ g.zoneAry i ↔ zone' ∈ (s.slgd z.cpu).zoneAry i)) ∧
      (∀ i, zone ∈ g.zoneAry i ↔ z.zoneIndex = i) ∧
      g.freeZones = (s.slgd z.cpu).freeZones ∧ g.blocked = (s.slgd z.cpu).blocked := by
    refine ⟨_, rfl, ?_⟩
    split_ifs with hzero
    · have hnot : ∀ i, zone ∉ (s.slgd z.cpu).zoneAry i := by
        intro i hmem
        have hpos : 0 < z.nFree := ((hlist i).mp hmem).2
        omega
      obtain ⟨hnodup, hary, hmem⟩ := setAry_push z.zoneIndex (h.ary_nodup z.cpu) hnot
      exact ⟨hop, hnodup, hary, hmem, rfl, rfl⟩
    · refine ⟨hop, h.ary_nodup z.cpu, fun _ _ _ => Iff.rfl, ?_, rfl, rfl⟩
      intro i
      rw [hlist i]
      exact and_iff_left (by change 0 < z.nFree; omega)
  obtain ⟨g, hg, hgop, hnodup, hary, hmem, hfree, hblocked⟩ := hback
  have hpos : 0 < (z.freeChunk l.chunk).nFree := by
    change 0 < z.nFree + 1
    omega
  have hsame : Same z (z.freeChunk l.chunk) := ⟨rfl, rfl, rfl, rfl, rfl⟩
  have hidle : ∀ zone', { g with op := none }.flight zone' = none := fun _ => flight_of_none rfl
  obtain ⟨g', y, hcheck, hinv⟩ := h.relist hz hmagic hsame hfreed
    (fun zone' _ => hnoFlight zone') hidle hnodup hary
    (fun i => (hmem i).trans (and_iff_left hpos).symm) hfree hblocked
    (fun _ _ _ hwork => by simp at hwork)
  simp only [State.kfreeLocal, hg, hcheck]
  have hgop' : g'.op = none := (checkZoneFree_op hcheck).trans hgop
  have heq : { g' with op := none } = g' := by rw [← hgop']
  rw [heq] at hinv
  exact hinv

theorem Inv.kfree (h : Inv cfg s) (hl : l ∈ (s.slot zone).live)
    (hop : (s.slot zone).header.any (fun z => z.cpu = c) → (s.slgd c).op = none) :
    Inv cfg (s.kfree c zone l) := by
  obtain ⟨z, hz, hmagic⟩ := h.inUse_of_live hl
  have hkup := (h.zone zone z hz hmagic).1
  have hgood : ¬ (z.kup = none ∨ z.magic = false) := by
    rw [hkup, hmagic]
    simp
  simp only [State.kfree, hz, if_neg hgood]
  split_ifs with hcpu
  · subst hcpu
    exact h.kfreeLocal (hop (by rw [hz]; simp)) hz hmagic hl
  · refine h.remote hz hmagic rfl (Same.refl z) rfl ?_
    intro taken L R hs
    exact ⟨L, R, { hs.handOver hl with }⟩

theorem finishMalloc_eq (hs : Sound cfg (s.slot zone) z 1 L R) (hfree : 0 ≤ z.nFree)
    (hcpu : z.cpu = c) (hsize : 0 < size) (hk : zoneindex size = some k)
    (hindex : k.index = z.zoneIndex) :
    ∃ z' p, s.finishMalloc c zone z size k.bytes =
        (s.setSlot zone ⟨some z', (s.slot zone).tasks, (s.slot zone).messages,
          ⟨c, p, size⟩ ::ₘ (s.slot zone).live, insert p (s.slot zone).used⟩).setOp c none ∧
      Same z z' ∧ z'.nFree = z.nFree ∧ z'.rChunks = z.rChunks ∧ z'.rSignal = z.rSignal ∧
      ∃ L' R', Sound cfg ⟨some z', (s.slot zone).tasks, (s.slot zone).messages,
        ⟨c, p, size⟩ ::ₘ (s.slot zone).live, insert p (s.slot zone).used⟩ z' 0 L' R' := by
  have hfits := zoneindex_fits hsize hk
  have hbytes : k.bytes = z.chunkSize := by
    rw [hfits.bytes_eq, hindex, hs.shape.size]
  have hle : size ≤ z.chunkSize := hbytes ▸ hfits.le_bytes
  obtain ⟨p, z', L', htake, hsame, hfree', hchunks, hsignal, hsound⟩ := hs.takeChunk hfree hle
  subst hcpu
  refine ⟨z', p, ?_, hsame, hfree', hchunks, hsignal, L', R, hsound _⟩
  simp only [State.finishMalloc, hbytes, htake]

theorem Inv.newZone (h : Inv cfg s) (cNext : ℕ → Option ℕ) (hop : (s.slgd c).op = none)
    (hsize : cfg.Zoned size) (hk : zoneindex size = some k)
    (hzone : ∀ z, (s.slot zone).header = some z → z.magic = false ∧ z.cpu = c)
    (hary : g.zoneAry = (s.slgd c).zoneAry) (hgop : g.op = none) (hnodup : g.freeZones.Nodup)
    (hnot : zone ∉ g.freeZones)
    (hfree : ∀ zone', zone' ≠ zone → (zone' ∈ g.freeZones ↔ zone' ∈ (s.slgd c).freeZones))
    (hblocked : ∀ n ∈ g.blocked, cfg.Zoned n) :
    Inv cfg (State.newZone cfg (s.setSlgd c g) c zone size k cNext) := by
  have hunused : (s.slot zone).Unused := h.unused zone fun z hz => (hzone z hz).1
  have hslgd : (s.setSlgd c g).slgd c = g := by
    simp [State.setSlgd]
  have hs := Sound.init hsize hk hunused c g.junkIndex cNext
    (some (init cfg c k g.junkIndex cNext))
  simp only at hs
  obtain ⟨g', hnew, hgop', hary', hfree', hblocked'⟩ : ∃ g',
      State.newZone cfg (s.setSlgd c g) c zone size k cNext = (s.setSlot zone
          ⟨some (init cfg c k g.junkIndex cNext), (s.slot zone).tasks,
            (s.slot zone).messages,
            ⟨c, (init cfg c k g.junkIndex cNext).basePtr +
              (init cfg c k g.junkIndex cNext).uIndex * k.bytes, size⟩ ::ₘ
              (s.slot zone).live,
            {(init cfg c k g.junkIndex cNext).basePtr +
              (init cfg c k g.junkIndex cNext).uIndex * k.bytes}⟩).setSlgd c g' ∧
      g'.op = none ∧
      g'.zoneAry = (g.setAry k.index (zone :: g.zoneAry k.index)).zoneAry ∧
      g'.freeZones = g.freeZones ∧ g'.blocked = g.blocked := by
    refine ⟨{ g.setAry k.index (zone :: g.zoneAry k.index) with
      junkIndex := (g.junkIndex + slabSlide) % maxZoneSize }, ?_, hgop, rfl, rfl, rfl⟩
    simp only [State.newZone, hslgd]
    simp only [State.setSlgd, State.setSlot, update_idem]
  have hunlisted : ∀ i, zone ∉ g.zoneAry i := by
    intro i hmem
    rw [hary, h.mem_ary] at hmem
    obtain ⟨z, hz, hmagic, _⟩ := hmem
    rw [(hzone z hz).1] at hmagic
    simp at hmagic
  have hgnodup : ∀ i, (g.zoneAry i).Nodup := by
    rw [hary]
    exact h.ary_nodup c
  obtain ⟨hpushed, hothers, hself⟩ := setAry_push k.index hgnodup hunlisted
  rw [hnew]
  apply h.change
  constructor
  · intro z hz
    exact (hzone z hz).2
  · intro z hz
    cases hz
    rfl
  · intro z hz _
    cases hz
    refine ⟨rfl, [], [], ?_⟩
    rw [flight_of_none hgop']
    exact hs
  · intro hfalse
    have hmagic := hfalse _ rfl
    simp [init] at hmagic
  · intro zone' _
    rw [flight_of_none hop, flight_of_none hgop']
  · rw [hary']
    exact hpushed
  · intro i zone' hne
    rw [hary', ← hary]
    exact hothers i zone' hne
  · intro i
    rw [hary', hself i, flight_of_none hgop']
    constructor
    · intro hi
      refine ⟨_, rfl, rfl, hi, ?_⟩
      have htwo : 2 ≤ (init cfg c k g.junkIndex cNext).nMax := hs.shape.two
      change 0 < ((init cfg c k g.junkIndex cNext).nMax : ℤ) - 1
      omega
    · rintro ⟨z, hz, _, hi, _⟩
      cases hz
      exact hi
  · rw [hfree']
    exact hnodup
  · rw [hfree']
    exact hfree
  · rw [hfree']
    refine iff_of_false hnot ?_
    rintro ⟨z, hz, hmagic⟩
    cases hz
    simp [init] at hmagic
  · intro kind zone' pc hwork
    rw [hgop'] at hwork
    simp at hwork
  · rw [hblocked']
    exact hblocked

end DragonFly.Slab
