import DragonFly.SlabSteps

/-!
# Runs of the slab allocator

The operations of the owner from their start to their end, and what holds in every
state that the cpus can reach together.
-/

namespace DragonFly.Slab

open List Option State

variable {C : Type} [DecidableEq C] {cfg : Config} {s : State C} {c : C} {zone : ℕ}

/-! ## Requests -/

theorem Inv.kmalloc (h : Inv cfg s) (hop : (s.slgd c).op = none) (hsize : cfg.Zoned size) :
    Inv cfg (s.kmalloc cfg c size) := by
  obtain ⟨k, hk⟩ := zoneindex_isSome hsize
  have hfits := zoneindex_fits hsize.1 hk
  have hlt : ¬ nzones ≤ k.index := not_le.mpr hfits.index_lt
  have hflight : ∀ zone, (s.slgd c).flight zone = none := fun _ => flight_of_none hop
  simp only [State.kmalloc, hk, if_neg hlt]
  cases hlist : (s.slgd c).zoneAry k.index with
  | cons zone rest =>
    have hmem : zone ∈ (s.slgd c).zoneAry k.index := by
      rw [hlist]
      exact mem_cons_self
    rw [h.mem_ary, hflight] at hmem
    obtain ⟨z, hz, hmagic, rfl, hindex, hpos⟩ := hmem
    replace hpos : 0 < z.nFree := hpos
    obtain ⟨_, L, R, hs⟩ := h.zone zone z hz hmagic
    rw [hflight] at hs
    have hreserve := hs.reserve
    have hsame : Same z { z with nFree := z.nFree - 1 } := ⟨rfl, rfl, rfl, rfl, rfl⟩
    simp only [hz]
    split_ifs with hmore hlast
    · obtain ⟨z', p, heq, hsame', hfree, _, _, L', R', hsound⟩ :=
        finishMalloc_eq (c := z.cpu) hreserve hmore.le rfl hsize.1 hk hindex.symm
      rw [heq]
      refine h.keep hz hmagic rfl ?_ ⟨L', R', hsound⟩ ?_ ?_ ?_
      · exact ⟨hsame'.magic, hsame'.kup, hsame'.cpu, hsame'.zoneIndex, hsame'.chunkSize⟩
      · rw [hflight, hfree]
        exact iff_of_true hmore hpos
      · intro zone' _
        rw [hflight]
        rfl
      · intro kind zone' pc hwork
        simp at hwork
    · apply h.start hop hz hmagic rfl hsame
      · refine ⟨L, R, ?_⟩
        simp only [SLGlobalData.flight, if_true, takenBy]
        exact { hreserve with }
      · simp only [SLGlobalData.flight, if_true, Listed]
        exact iff_of_true trivial hpos
      · refine ⟨hsize.1, hk, hindex.symm, hlast.ge, ?_⟩
        rw [hlist]
        rfl
    · have hzero : z.nFree - 1 = 0 := by
        simp only [not_lt] at hmore
        omega
      exact absurd hzero hlast
  | nil =>
    cases hfree : (s.slgd c).freeZones with
    | cons zone rest =>
      have hnodup := h.free_nodup c
      have hmem : zone ∈ (s.slgd c).freeZones := by
        rw [hfree]
        exact mem_cons_self
      rw [hfree, nodup_cons] at hnodup
      rw [h.mem_free] at hmem
      obtain ⟨z, hz, hmagic, hcpu⟩ := hmem
      simp only [hz]
      apply h.newZone z.cNext hop hsize hk
      · intro y hy
        rw [hz] at hy
        cases hy
        exact ⟨hmagic, hcpu⟩
      · rfl
      · exact hop
      · exact hnodup.2
      · exact hnodup.1
      · intro zone' hne
        rw [hfree, mem_cons, or_iff_right hne]
      · exact h.blocked c
    | nil =>
      refine h.setSlgd rfl hfree.symm ?_ ?_ ?_
      · intro zone
        rw [hflight]
        exact flight_of_none hop
      · intro kind zone pc hwork
        exact absurd (hop.symm.trans hwork) (some_ne_none _).symm
      · intro n hn
        rcases Multiset.mem_cons.mp hn with rfl | hn
        · exact hsize
        · exact h.blocked c n hn

theorem Inv.slabAllocated (h : Inv cfg s) (hop : (s.slgd c).op = none)
    (hsize : size ∈ (s.slgd c).blocked) (hzone : (s.slot zone).header.isNone) :
    Inv cfg (s.slabAllocated cfg c size zone) := by
  have hzoned := h.blocked c size hsize
  have hnone : (s.slot zone).header = none := isNone_iff_eq_none.mp hzone
  obtain ⟨k, hk⟩ := zoneindex_isSome hzoned
  simp only [State.slabAllocated, hk]
  apply h.newZone _ hop hzoned hk
  · intro z hz
    rw [hnone] at hz
    simp at hz
  · rfl
  · exact hop
  · exact h.free_nodup c
  · change zone ∉ (s.slgd c).freeZones
    rw [h.mem_free]
    rintro ⟨z, hz, _⟩
    rw [hnone] at hz
    simp at hz
  · intro zone' _
    exact Iff.rfl
  · intro n hn
    exact h.blocked c n (Multiset.mem_of_mem_erase hn)

/-! ## Messages -/

theorem Inv.kfreeRemote
    (h : Inv cfg s) (hop : (s.slgd c).op = none) (hc : c ∈ (s.slot zone).messages) :
    Inv cfg (s.kfreeRemote c zone) := by
  obtain ⟨z, hz, hmagic⟩ := h.inUse_of_message hc
  obtain ⟨hkup, L, R, hs⟩ := h.zone zone z hz hmagic
  have hcpu : c = z.cpu := hs.sent c hc
  subst hcpu
  rw [flight_of_none hop] at hs
  have hcard : (s.slot zone).messages.card = ((s.slot zone).messages.erase z.cpu).card + 1 := by
    rw [← Multiset.card_cons, Multiset.cons_erase hc]
  have hrefs := hs.refs
  simp only [Slot.refs, hcard] at hrefs
  have hcount : 0 < z.rCount := by omega
  have hgood : z.kup = some z.cpu ∧ 0 < z.rCount ∧ z.magic = true ∧ z.cpu = z.cpu :=
    ⟨hkup, hcount, hmagic, rfl⟩
  rw [kfreeRemote, hz]
  dsimp only
  rw [if_pos hgood]
  have hsame : Same z { z with rCount := z.rCount - 1 } := ⟨rfl, rfl, rfl, rfl, rfl⟩
  apply h.start hop hz hmagic rfl hsame
  · refine ⟨L, R, ?_⟩
    simp only [SLGlobalData.flight, if_true, takenBy]
    apply hs.recount _ rfl
    · push_cast at hrefs ⊢
      omega
    · exact hs.linked
    · intro c' hc'
      exact hs.sent c' (Multiset.mem_of_mem_erase hc')
  · simp only [SLGlobalData.flight, if_true, Listed]
  · exact ⟨hs.nFree_nonneg, le_rfl⟩

/-! ## The end of an operation -/

theorem flight_of_work {g : SLGlobalData} (hop : g.op = some (.work kind zone pc))
    (hne : ∀ i, kind ≠ .cleanup i) : g.flight zone = some kind := by
  cases kind with
  | malloc size k | remote nfree => simp only [SLGlobalData.flight, hop, if_true]
  | cleanup i => exact absurd rfl (hne i)

variable {z : SLZone C} {k : ZoneClass}

theorem Inv.settleEmpty (h : Inv cfg s) {size : ℕ}
    (hop : (s.slgd z.cpu).op = some (.work (.malloc size k) zone pc))
    (hz : (s.slot zone).header = some z) (hmagic : z.magic = true) (hempty : z.nFree = 0) :
    Inv cfg (s.settle z.cpu (.malloc size k) zone z) := by
  obtain ⟨_, L, R, hs⟩ := h.zone zone z hz hmagic
  rw [flight_of_work hop (by simp)] at hs
  obtain ⟨y, hy, _, _, hsize, hk, hindex, hnonneg, hhead⟩ := h.busy z.cpu _ zone pc hop
  rw [hz] at hy
  cases hy
  obtain ⟨rest, hlist⟩ : ∃ rest, (s.slgd z.cpu).zoneAry k.index = zone :: rest := by
    cases hary : (s.slgd z.cpu).zoneAry k.index with
    | nil => simp [hary] at hhead
    | cons zone' rest =>
      simp only [hary, head?_cons, some.injEq] at hhead
      exact ⟨rest, by rw [hhead]⟩
  have hnodup := h.ary_nodup z.cpu k.index
  rw [hlist, nodup_cons] at hnodup
  obtain ⟨z', p, heq, hsame, hfree, _, _, L', R', hsound⟩ :=
    finishMalloc_eq (s := s.setSlgd z.cpu ((s.slgd z.cpu).setAry k.index rest)) (c := z.cpu)
      hs hnonneg rfl hsize hk hindex
  have hnext : zoneNext zone ((s.slgd z.cpu).zoneAry k.index) = rest := by
    rw [hlist, zoneNext, if_pos rfl]
  simp only [State.settle, if_pos hempty, hnext, heq]
  have hmagic' : z'.magic = true := hsame.magic.trans hmagic
  obtain ⟨g, hstate, hself, hother, hgop, hgfree, hgblocked⟩ : ∃ g,
      ((s.setSlgd z.cpu ((s.slgd z.cpu).setAry k.index rest)).setSlot zone
        ⟨some z', (s.slot zone).tasks, (s.slot zone).messages,
          ⟨z.cpu, p, size⟩ ::ₘ (s.slot zone).live, insert p (s.slot zone).used⟩).setOp z.cpu none =
      (s.setSlot zone ⟨some z', (s.slot zone).tasks, (s.slot zone).messages,
        ⟨z.cpu, p, size⟩ ::ₘ (s.slot zone).live, insert p (s.slot zone).used⟩).setSlgd z.cpu g ∧
      g.zoneAry k.index = rest ∧
      (∀ i, i ≠ k.index → g.zoneAry i = (s.slgd z.cpu).zoneAry i) ∧ g.op = none ∧
      g.freeZones = (s.slgd z.cpu).freeZones ∧ g.blocked = (s.slgd z.cpu).blocked := by
    refine ⟨{ (s.slgd z.cpu).setAry k.index rest with op := none }, ?_, ?_, ?_, rfl, rfl, rfl⟩
    · simp [State.setOp, State.setSlgd, State.setSlot]
    · simp [SLGlobalData.setAry]
    · intro i hi
      simp [SLGlobalData.setAry, hi]
  refine hstate ▸ h.change ?_
  constructor
  · intro y hy
    rw [hz] at hy
    cases hy
    rfl
  · intro y hy
    cases hy
    exact hsame.cpu
  · intro y hy _
    cases hy
    rw [flight_of_none hgop]
    refine ⟨?_, L', R', hsound⟩
    rw [hsame.kup]
    exact (h.zone zone z hz hmagic).1
  · intro hfalse
    have hy := hfalse z' rfl
    rw [hmagic'] at hy
    simp at hy
  · intro zone' hne
    rw [flight_of_ne hop hne.symm, flight_of_none hgop]
  · intro i
    by_cases hi : i = k.index
    · rw [hi, hself]
      exact hnodup.2
    · rw [hother i hi]
      exact h.ary_nodup z.cpu i
  · intro i zone' hne
    by_cases hi : i = k.index
    · rw [hi, hself, hlist, mem_cons, or_iff_right hne]
    · rw [hother i hi]
  · intro i
    refine iff_of_false ?_ ?_
    · by_cases hi : i = k.index
      · rw [hi, hself]
        exact hnodup.1
      · rw [hother i hi, h.mem_ary_iff hz hmagic]
        rintro ⟨hzone, _⟩
        exact hi (hzone.symm.trans hindex.symm)
    · rintro ⟨y, hy, _, _, hpos⟩
      cases hy
      rw [flight_of_none hgop] at hpos
      replace hpos : 0 < z'.nFree := hpos
      omega
  · rw [hgfree]
    exact h.free_nodup z.cpu
  · intro zone' _
    rw [hgfree]
  · rw [hgfree, h.mem_free]
    refine iff_of_false ?_ ?_
    · rintro ⟨y, hy, hfalse, _⟩
      rw [hz] at hy
      cases hy
      rw [hmagic] at hfalse
      simp at hfalse
    · rintro ⟨y, hy, hfalse⟩
      cases hy
      rw [hmagic'] at hfalse
      simp at hfalse
  · intro kind zone' pc' hwork
    rw [hgop] at hwork
    simp at hwork
  · rw [hgblocked]
    exact h.blocked z.cpu

theorem Inv.settleMalloc (h : Inv cfg s) {size : ℕ}
    (hop : (s.slgd z.cpu).op = some (.work (.malloc size k) zone pc))
    (hz : (s.slot zone).header = some z) (hmagic : z.magic = true) :
    Inv cfg (s.settle z.cpu (.malloc size k) zone z) := by
  by_cases hempty : z.nFree = 0
  · exact h.settleEmpty hop hz hmagic hempty
  · obtain ⟨_, L, R, hs⟩ := h.zone zone z hz hmagic
    have hflight := flight_of_work hop (by simp)
    rw [hflight] at hs
    obtain ⟨y, hy, _, _, hsize, hk, hindex, hnonneg, _⟩ := h.busy z.cpu _ zone pc hop
    rw [hz] at hy
    cases hy
    have hquiet : Sound cfg (s.slot zone) { z with rSignal := false } 1 L R := { hs with }
    obtain ⟨z', p, heq, hsame, hfree, _, _, L', R', hsound⟩ :=
      finishMalloc_eq (c := z.cpu) hquiet hnonneg rfl hsize hk hindex
    simp only [settle, if_neg hempty, heq]
    refine h.keep hz hmagic rfl ?_ ⟨L', R', hsound⟩ ?_ ?_ ?_
    · exact ⟨hsame.magic, hsame.kup, hsame.cpu, hsame.zoneIndex, hsame.chunkSize⟩
    · rw [hflight]
      have hpos : 0 < z'.nFree := by
        rw [hfree]
        exact lt_of_le_of_ne hnonneg (Ne.symm hempty)
      exact iff_of_true hpos trivial
    · intro zone' hne
      rw [flight_of_ne hop hne.symm]
      rfl
    · intro kind zone' pc' hwork
      simp at hwork

theorem Inv.settleRemote (h : Inv cfg s) {nfree : ℤ}
    (hop : (s.slgd z.cpu).op = some (.work (.remote nfree) zone pc))
    (hz : (s.slot zone).header = some z) (hmagic : z.magic = true) :
    Inv cfg (s.settle z.cpu (.remote nfree) zone z) := by
  obtain ⟨_, L, R, hs⟩ := h.zone zone z hz hmagic
  have hflight := flight_of_work hop (by simp)
  rw [hflight] at hs
  obtain ⟨y, hy, _, _, hnonneg, hle⟩ := h.busy z.cpu _ zone pc hop
  rw [hz] at hy
  cases hy
  have hlist := h.mem_ary_iff hz hmagic
  simp only [hflight] at hlist
  -- The zone comes back to its list if it was off it and has chunks now.
  have hback : ∃ g, (if z.nFree ≠ 0 ∧ nfree = 0 then
        (s.slgd z.cpu).setAry z.zoneIndex (zone :: (s.slgd z.cpu).zoneAry z.zoneIndex)
      else s.slgd z.cpu) = g ∧
      (∀ i, (g.zoneAry i).Nodup) ∧
      (∀ i zone', zone' ≠ zone → (zone' ∈ g.zoneAry i ↔ zone' ∈ (s.slgd z.cpu).zoneAry i)) ∧
      (∀ i, zone ∈ g.zoneAry i ↔ z.zoneIndex = i ∧ 0 < z.nFree) ∧
      g.freeZones = (s.slgd z.cpu).freeZones ∧ g.blocked = (s.slgd z.cpu).blocked := by
    refine ⟨_, rfl, ?_⟩
    split_ifs with hcome
    · have hnot : ∀ i, zone ∉ (s.slgd z.cpu).zoneAry i := by
        intro i hmem
        have hpos : 0 < nfree := ((hlist i).mp hmem).2
        omega
      have hpos : 0 < z.nFree := by omega
      obtain ⟨hnodup, hary, hmem⟩ := setAry_push z.zoneIndex (h.ary_nodup z.cpu) hnot
      exact ⟨hnodup, hary, fun i => (hmem i).trans (and_iff_left hpos).symm, rfl, rfl⟩
    · refine ⟨h.ary_nodup z.cpu, fun _ _ _ => Iff.rfl, ?_, rfl, rfl⟩
      intro i
      rw [hlist i]
      have hsame : Listed (some (.remote nfree)) z.nFree ↔ 0 < z.nFree := by
        change 0 < nfree ↔ 0 < z.nFree
        omega
      rw [hsame]
  obtain ⟨g, hg, hnodup, hary, hmem, hfree, hblocked⟩ := hback
  have hidle : ∀ zone', { g with op := none }.flight zone' = none := fun _ => flight_of_none rfl
  obtain ⟨g', y, hcheck, hinv⟩ := h.relist hz hmagic (Same.refl z) hs
    (fun zone' hne => flight_of_ne hop hne.symm) hidle
    hnodup hary hmem hfree hblocked (fun _ _ _ hwork => by simp at hwork)
  simp only [settle, hg, hcheck]
  exact hinv

theorem zoneNext_mem (hnodup : l.Nodup) (hnext : zoneNext zone l = zone' :: rest) :
    zone' ∈ l ∧ zone' ≠ zone := by
  induction l with
  | nil => simp [zoneNext] at hnext
  | cons z l ih =>
    rw [nodup_cons] at hnodup
    rw [zoneNext] at hnext
    split_ifs at hnext with heq
    · subst heq
      rw [hnext] at hnodup ⊢
      refine ⟨by simp, ?_⟩
      rintro rfl
      exact hnodup.1 mem_cons_self
    · obtain ⟨hmem, hne⟩ := ih hnodup.2 hnext
      exact ⟨mem_cons_of_mem z hmem, hne⟩

theorem Inv.settleCleanup (h : Inv cfg s)
    (hop : (s.slgd z.cpu).op = some (.work (.cleanup i) zone pc))
    (hz : (s.slot zone).header = some z) (hmagic : z.magic = true) :
    Inv cfg (s.settle z.cpu (.cleanup i) zone z) := by
  have hnoFlight : ∀ zone', (s.slgd z.cpu).flight zone' = none := by
    intro zone'
    simp only [SLGlobalData.flight, hop]
  obtain ⟨_, L, R, hs⟩ := h.zone zone z hz hmagic
  rw [hnoFlight] at hs
  have hlist := h.mem_ary_iff hz hmagic
  simp only [hnoFlight] at hlist
  -- What comes after the zone on its list is looked at next.
  have hstep (op : Op)
      (hidle : ∀ zone', ({ s.slgd z.cpu with op := some op } : SLGlobalData).flight zone' = none)
      (hbusy : ∀ kind zone' pc', some op = some (.work kind zone' pc') →
        ∃ j, kind = .cleanup j ∧ zone' ≠ zone ∧ zone' ∈ (s.slgd z.cpu).zoneAry j) :=
    h.relist hz hmagic (Same.refl z) hs (fun zone' _ => hnoFlight zone') hidle
      (h.ary_nodup z.cpu) (fun _ _ _ => Iff.rfl) hlist rfl rfl hbusy
  cases hrest : zoneNext zone ((s.slgd z.cpu).zoneAry i) with
  | nil =>
    obtain ⟨g', y, hcheck, hinv⟩ := hstep (.scan (i + 1)) (fun _ => rfl) (by simp)
    simp only [settle, hcheck, hrest]
    exact hinv
  | cons zone' rest =>
    obtain ⟨hmem, hne⟩ := zoneNext_mem (h.ary_nodup z.cpu i) hrest
    obtain ⟨g', y, hcheck, hinv⟩ := hstep (.work (.cleanup i) zone' .read) (fun _ => rfl) (by
      intro kind zone'' pc' hwork
      simp only [some.injEq, Op.work.injEq] at hwork
      obtain ⟨rfl, rfl, _⟩ := hwork
      exact ⟨i, rfl, hne, hmem⟩)
    simp only [settle, hcheck, hrest]
    exact hinv

/-! ## Every event -/

theorem Inv.advance (h : Inv cfg s) (hop : (s.slgd c).op = some op) : Inv cfg (s.advance c op) := by
  cases op with
  | scan i =>
    have hnoFlight : ∀ zone, (s.slgd c).flight zone = none := by
      intro zone
      simp only [SLGlobalData.flight, hop]
    -- The scan looks for a second zone on a list.
    have hgoto : ∀ op', (∀ kind zone pc, op' = some (.work kind zone pc) →
        ∃ j first rest, kind = .cleanup j ∧ (s.slgd c).zoneAry j = first :: zone :: rest) →
        Inv cfg (s.setOp c op') := by
      intro op' hop'
      refine h.setSlgd rfl rfl ?_ ?_ (h.blocked c)
      · intro zone
        rw [hnoFlight]
        simp only [SLGlobalData.flight]
        split
        · obtain ⟨j, _, _, hkind, _⟩ := hop' _ _ _ rfl
          simp at hkind
        · obtain ⟨j, _, _, hkind, _⟩ := hop' _ _ _ rfl
          simp at hkind
        · rfl
      · intro kind zone pc hwork
        obtain ⟨j, first, rest, rfl, hlist⟩ := hop' kind zone pc hwork
        have hmem : zone ∈ (s.slgd c).zoneAry j := by
          rw [hlist]
          simp
        rw [h.mem_ary, hnoFlight] at hmem
        obtain ⟨z, hz, hmagic, hcpu, hindex, hpos⟩ := hmem
        exact ⟨z, hz, hmagic, hcpu, hindex, hpos⟩
    simp only [State.advance]
    split_ifs with hi
    · split
      · next first zone rest heq =>
          apply hgoto
          intro kind zone' pc hwork
          simp only [some.injEq, Op.work.injEq] at hwork
          obtain ⟨rfl, rfl, _⟩ := hwork
          exact ⟨i, first, rest, rfl, heq⟩
      · apply hgoto
        intro kind zone pc hwork
        simp at hwork
    · apply hgoto
      intro kind zone pc hwork
      simp at hwork
  | work kind zone pc =>
    obtain ⟨z, hz, hmagic, hcpu, hworking⟩ := h.busy c kind zone pc hop
    subst hcpu
    -- Steps that leave the chunks where they are.
    have hgoto : ∀ pc', Inv cfg (s.setOp z.cpu (some (.work kind zone pc'))) := by
      intro pc'
      have hstay : s.setSlot zone (s.slot zone) = s := by
        simp [State.setSlot]
      have hinv : Inv cfg ((s.setSlot zone (s.slot zone)).setOp z.cpu
          (some (.work kind zone pc'))) :=
        h.proceed hop hz hmagic hz (Same.refl z) le_rfl (fun taken L R hs => ⟨L, R, hs⟩)
      rw [hstay] at hinv
      exact hinv
    have hsignal : ∀ b pc', Inv cfg ((s.setHeader zone { z with rSignal := b }).setOp z.cpu
          (some (.work kind zone pc'))) := by
      intro b pc'
      exact h.proceed hop hz hmagic rfl ⟨rfl, rfl, rfl, rfl, rfl⟩ le_rfl
        (fun taken L R hs => ⟨L, R, { hs with }⟩)
    simp only [State.advance, hz]
    cases pc with
    | test => cases kind <;> exact hgoto _
    | signal =>
      cases kind with
      | malloc size k => exact hsignal true .read
      | remote nfree => exact hsignal false .read
      | cleanup i => exact hgoto _
    | read =>
      simp only
      split
      · exact hgoto _
      · exact hgoto _
    | swap bchunk =>
      simp only
      split_ifs with hb
      · obtain ⟨_, L, R, hs⟩ := h.zone zone z hz hmagic
        obtain ⟨z', hdrain, hsame, hfree, _, _, _, _⟩ := hs.drain hb
        simp only [hdrain]
        apply h.proceed hop hz hmagic rfl hsame (by omega)
        intro taken L' R' hs'
        obtain ⟨z'', hdrain', _, _, _, _, _, hsound⟩ := hs'.drain hb
        rw [hdrain] at hdrain'
        cases hdrain'
        exact ⟨_, _, hsound _⟩
      · exact hgoto _
    | settle =>
      cases kind with
      | malloc size k => exact h.settleMalloc hop hz hmagic
      | remote nfree => exact h.settleRemote hop hz hmagic
      | cleanup i => exact h.settleCleanup hop hz hmagic

theorem Inv.release (h : Inv cfg s) (hop : (s.slgd c).op = none)
    (hmany : cfg.zoneRelsThresh < (s.slgd c).freeZones.length) :
    Inv cfg (s.perform cfg (.release c)) := by
  simp only [perform]
  cases hfree : (s.slgd c).freeZones with
  | nil =>
    rw [hfree] at hmany
    simp at hmany
  | cons zone rest =>
    have hnodup := h.free_nodup c
    have hmem : zone ∈ (s.slgd c).freeZones := by
      rw [hfree]
      exact mem_cons_self
    rw [hfree, nodup_cons] at hnodup
    rw [h.mem_free] at hmem
    obtain ⟨z, hz, hmagic, hcpu⟩ := hmem
    have hunused : (s.slot zone).Unused := by
      apply h.unused
      intro y hy
      rw [hz] at hy
      cases hy
      exact hmagic
    apply h.change
    constructor
    · intro y hy
      rw [hz] at hy
      cases hy
      exact hcpu
    · intro y hy
      simp at hy
    · intro y hy
      simp at hy
    · intro _
      exact hunused
    · intro zone' _
      rw [flight_of_none hop]
      exact flight_of_none hop
    · exact h.ary_nodup c
    · intro i zone' _
      exact Iff.rfl
    · intro i
      refine iff_of_false ?_ ?_
      · change zone ∉ (s.slgd c).zoneAry i
        rw [h.mem_ary]
        rintro ⟨y, hy, htrue, _⟩
        rw [hz] at hy
        cases hy
        rw [hmagic] at htrue
        simp at htrue
      · rintro ⟨y, hy, _⟩
        simp at hy
    · exact hnodup.2
    · intro zone' hne
      rw [hfree, mem_cons, or_iff_right hne]
    · refine iff_of_false hnodup.1 ?_
      rintro ⟨y, hy, _⟩
      simp at hy
    · intro kind zone' pc hwork
      exact absurd (hop.symm.trans hwork) (some_ne_none _).symm
    · exact h.blocked c

theorem Inv.next (h : Inv cfg s) (hnext : s.next cfg e = some s') : Inv cfg s' := by
  unfold State.next at hnext
  split_ifs at hnext with hallowed
  cases hnext
  have henabled := hallowed.2
  cases e with
  | kmalloc c size => exact h.kmalloc henabled.1 henabled.2
  | slabAllocated c size zone => exact h.slabAllocated henabled.1 henabled.2.1 henabled.2.2
  | slabAllocFailed c size =>
    refine h.setSlgd rfl rfl (fun _ => rfl) (h.busy c) ?_
    intro n hn
    exact h.blocked c n (Multiset.mem_of_mem_erase hn)
  | release c => exact h.release henabled.1 henabled.2
  | kfree c zone l => exact h.kfree henabled.1 henabled.2
  | remote zone t => exact h.remoteStep henabled
  | kfreeRemote c zone => exact h.kfreeRemote henabled.1 henabled.2
  | slabCleanup c =>
    have hop : (s.slgd c).op = none := henabled
    refine h.setSlgd rfl rfl ?_ ?_ (h.blocked c)
    · intro zone
      rw [flight_of_none hop]
      rfl
    · intro kind zone pc hwork
      simp at hwork
  | advance c =>
    obtain ⟨op, hop⟩ := isSome_iff_exists.mp henabled
    simp only [State.perform, hop]
    exact h.advance hop
  | store zone l v => exact h.store henabled v

end DragonFly.Slab
