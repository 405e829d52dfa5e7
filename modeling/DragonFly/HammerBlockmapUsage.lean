import DragonFly.HammerBigblock

/-!
# Operations of the HAMMER blockmap

`Usage` records the extents that callers have and the reservations they hold.
Every operation keeps the mount sound for it, and an extent that is handed out
has the room it was placed in.
-/

namespace DragonFly.Hammer

open Function Multiset

/-- What the callers of the blockmap have.  `delayed` are the big-blocks whose
last extent was freed and whose reservation is still to be completed. -/
structure Usage where
  allocated : Multiset Extent
  held : Multiset Hold
  delayed : Set ℕ

/-- The extents that are allocated, finalized or reserved. -/
def Usage.Live (usage : Usage) (extent : Extent) : Prop :=
  extent ∈ usage.allocated ∨ ⟨extent, false⟩ ∈ usage.held

/-- The bytes of an extent in the raw address space, which the zones share. -/
def Extent.raw (extent : Extent) : Set ℕ :=
  Set.Ico (extent.zoneOffset % hammerZoneSize) (extent.zoneOffset % hammerZoneSize + extent.span)

def HammerMount.view (hmp : HammerMount) (usage : Usage) (block : ℕ) : Bigblock :=
  { layer2 := hmp.layer2 block
    resv := hmp.resv block
    allocated := usage.allocated.filter fun extent => extent.block = block
    held := usage.held.filter fun hold => hold.extent.block = block
    delayed := block ∈ usage.delayed }

structure HammerMount.Sound (hmp : HammerMount) (usage : Usage) : Prop where
  view : ∀ block, (hmp.view usage block).Sound 0
  nextOffset : ∀ zone, hammerZoneEncode zone 0 ≤ hmp.nextOffset zone ∧
    hmp.nextOffset zone ≤ hammerZoneEncode (zone + 1) 0
  held_zone : ∀ hold ∈ usage.held, hold.extent.zone ≠ 0

/-! ## The scan -/

/-- The offset lies in the zone, whose end is included. -/
def InZone (zone offset : ℕ) : Prop :=
  hammerZoneEncode zone 0 ≤ offset ∧ offset ≤ hammerZoneEncode (zone + 1) 0

theorem boundaryUnit_cases (bytes : ℕ) :
    boundaryUnit bytes = 16384 ∧ bytes ≤ 16384 ∨ boundaryUnit bytes = 8388608 := by
  unfold boundaryUnit
  split_ifs with hsmall
  · exact Or.inl ⟨rfl, hsmall⟩
  · exact Or.inr rfl

variable {resv : Option HammerReserve} {zone offset next bytes fuel hint holders block other : ℕ}
  {usage : Usage} {hmp hmp' : HammerMount} {avoidVolume delError : Bool} {io : Bread}
  {extent : Extent}

theorem checkResv_again (hle : ∀ old, resv = some old → old.appendOff ≤ hammerLargeblockSize)
    (hzone : InZone zone offset) (hlast : offset ≠ hammerZoneEncode (zone + 1) 0)
    (hpass : checkResv zone offset resv = .again next) : InZone zone next := by
  cases resv with
  | none => cases hpass
  | some old =>
    have hold := hle old rfl
    simp only [checkResv] at hpass
    split_ifs at hpass
    · cases hpass
      simp only [InZone, hammerZoneEncode, hammerLargeblockSize] at *
      omega
    · cases hpass
      simp only [InZone, hammerZoneEncode, hammerLargeblockSize] at *
      omega

theorem checkLayer2_again (h : hmp.Sound usage) (hzone : InZone zone offset)
    (hlast : offset ≠ hammerZoneEncode (zone + 1) 0)
    (hpass : checkLayer2 hmp zone offset = .again next) : InZone zone next := by
  have hview := h.view (bigblock offset)
  have hle : (hmp.layer2 (bigblock offset)).appendOff ≤ 8388608 := hview.appendOff_le
  simp only [checkLayer2] at hpass
  split_ifs at hpass
  · cases hpass
    simp only [InZone, hammerZoneEncode, hammerLargeblockSize] at *
    omega
  · cases hpass
    simp only [InZone, hammerZoneEncode, hammerLargeblockSize] at *
    omega
  · exact checkResv_again (fun old hold => (hview.resv old hold).le) hzone
      hlast hpass

theorem scanPass_again (h : hmp.Sound usage) (hbytes : 0 < bytes) (hmax : bytes ≤ hammerXbufsize)
    (hzone : InZone zone offset) (hlast : offset ≠ hammerZoneEncode (zone + 1) 0)
    (hpass : scanPass hmp io avoidVolume zone bytes offset = .again next) : InZone zone next := by
  have hlayer1 : InZone zone ((offset + hammerBlockmapLayer2) /
      hammerBlockmapLayer2 * hammerBlockmapLayer2) := by
    simp only [InZone, hammerZoneEncode, hammerBlockmapLayer2] at *
    omega
  simp only [scanPass] at hpass
  split_ifs at hpass with hcross
  · cases hpass
    simp only [InZone, hammerZoneEncode, hammerXbufsize] at *
    rcases boundaryUnit_cases bytes with ⟨hunit, hsmall⟩ | hunit
    · rw [hunit] at hcross ⊢
      omega
    · rw [hunit] at hcross ⊢
      omega
  · cases hpass
    exact hlayer1
  · cases hpass
    exact hlayer1
  · exact checkLayer2_again h hzone hlast hpass

theorem scanPass_found
    (usage : Usage) (hpass : scanPass hmp io avoidVolume zone bytes offset = .found) :
    offset / boundaryUnit bytes = (offset + bytes - 1) / boundaryUnit bytes ∧
      (hmp.view usage (bigblock offset)).Room zone (offset % hammerLargeblockSize) := by
  simp only [scanPass] at hpass
  split_ifs at hpass with hcross
  refine ⟨not_not.mp hcross, ?_⟩
  simp only [checkLayer2] at hpass
  split_ifs at hpass with howner happend
  refine ⟨?_, Nat.le_of_not_lt happend, ?_⟩
  · by_contra hother
    rw [not_or] at hother
    exact howner hother
  · intro resv hresv
    have hresv' : hmp.resv (bigblock offset) = some resv := hresv
    rw [hresv'] at hpass
    simp only [checkResv] at hpass
    split_ifs at hpass with hzone hoff
    exact ⟨not_not.mp hzone, Nat.le_of_not_lt hoff⟩

theorem wrapZone_inZone (hzone : InZone zone offset)
    (hwrap : wrapZone zone loops offset = some (loops', next)) :
    InZone zone next ∧ next ≠ hammerZoneEncode (zone + 1) 0 := by
  unfold wrapZone at hwrap
  split_ifs at hwrap with hend
  · cases hwrap
    simp only [InZone, hammerZoneEncode]
    omega
  · cases hwrap
    exact ⟨hzone, hend⟩

theorem scanLoop_found (h : hmp.Sound usage) (hbytes : 0 < bytes) (hmax : bytes ≤ hammerXbufsize)
    (hzone : InZone zone offset)
    (hscan : scanLoop hmp io avoidVolume zone bytes hint fuel loops offset
      useHint = some (.found next useHint')) :
    InZone zone next ∧ next ≠ hammerZoneEncode (zone + 1) 0 ∧
      next / boundaryUnit bytes = (next + bytes - 1) / boundaryUnit bytes ∧
      (hmp.view usage (bigblock next)).Room zone (next % hammerLargeblockSize) := by
  induction fuel generalizing loops offset useHint with
  | zero => cases hscan
  | succ fuel ih =>
    have hstart : InZone zone (leaveHint hmp zone hint offset useHint).1 := by
      unfold leaveHint
      split_ifs
      · exact h.nextOffset zone
      · exact hzone
    unfold scanLoop at hscan
    simp only at hscan
    cases hwrap : wrapZone zone loops
        (leaveHint hmp zone hint offset useHint).1 with
    | none =>
      rw [hwrap] at hscan
      cases hscan
    | some wrapped =>
      obtain ⟨loops', offset'⟩ := wrapped
      obtain ⟨hzone', hlast⟩ := wrapZone_inZone hstart hwrap
      rw [hwrap] at hscan
      simp only at hscan
      cases hpass : scanPass hmp io avoidVolume zone bytes offset' with
      | again next' =>
        rw [hpass] at hscan
        exact ih (scanPass_again h hbytes hmax hzone' hlast hpass) hscan
      | found =>
        rw [hpass] at hscan
        cases hscan
        exact ⟨hzone', hlast, scanPass_found usage hpass⟩
      | failed error | panic =>
        rw [hpass] at hscan
        cases hscan

/-! ## Changes of one big-block -/

theorem setResv_same (hmp : HammerMount) (block : ℕ) (resv : Option HammerReserve) :
    (hmp.setResv block resv).resv block = resv :=
  update_self _ _ _

/-- Disposing of the buffers may put the reservation on the delay list, with a
reference of its own, and may close the big-block. -/
theorem disposeBuffers_spec (delError : Bool) {resv : HammerReserve}
    (hrefs : resv.refs = holders + 1 + if resv.onDelay then 1 else 0)
    (hle : resv.appendOff ≤ hammerLargeblockSize) :
    (disposeBuffers delError resv).zone = resv.zone ∧
      resv.appendOff ≤ (disposeBuffers delError resv).appendOff ∧
      (disposeBuffers delError resv).appendOff ≤ hammerLargeblockSize ∧
      (disposeBuffers delError resv).refs = holders + 1 +
        (if (disposeBuffers delError resv).onDelay then 1 else 0) ∧
      (resv.onDelay = true → (disposeBuffers delError resv).onDelay = true) := by
  by_cases hlast : resv.refs = 1 ∧ resv.layer2Free = true
  · have hoff : resv.onDelay = false := by
      cases hon : resv.onDelay
      · rfl
      · rw [hon, if_pos rfl] at hrefs
        omega
    have hnone : holders = 0 := by omega
    cases delError with
    | true =>
      simp [disposeBuffers, hammerReserveSetdelay, hoff, hle, hnone, hlast]
    | false => simp [disposeBuffers, hoff, hle, hnone, hlast]
  · have hkeep : disposeBuffers delError resv = resv := if_neg hlast
    rw [hkeep]
    exact ⟨rfl, le_rfl, hle, hrefs, id⟩

theorem reserveComplete_released {resv : HammerReserve} (hresv : hmp.resv block = some resv)
    (hrefs : resv.refs = holders + 1 + if resv.onDelay then 1 else 0)
    (hle : resv.appendOff ≤ hammerLargeblockSize)
    (h : hammerBlockmapReserveComplete hmp delError block = some hmp') :
    ∃ resv', hmp' = hmp.setResv block resv' ∧ Bigblock.Released holders resv resv' := by
  obtain ⟨hzone, happend, hle', hrefs', hon⟩ := disposeBuffers_spec delError hrefs hle
  unfold hammerBlockmapReserveComplete at h
  simp only [hresv] at h
  split_ifs at h with hzero hlast hdelay
  · cases h
    refine ⟨none, rfl, by omega, ?_⟩
    cases hcase : resv.onDelay
    · rfl
    · exact absurd (hon hcase) hdelay
  · cases h
    refine ⟨_, rfl, hzone, happend, hle', ?_, Nat.pos_of_ne_zero hlast, hon⟩
    simp only
    omega

structure ChangesOnly (hmp hmp' : HammerMount) (usage usage' : Usage)
    (block : ℕ) : Prop where
  layer2 : ∀ other ≠ block, hmp'.layer2 other = hmp.layer2 other
  resv : ∀ other ≠ block, hmp'.resv other = hmp.resv other
  allocated : ∀ other ≠ block, usage'.allocated.filter (fun extent => extent.block = other) =
      usage.allocated.filter fun extent => extent.block = other
  held : ∀ other ≠ block, usage'.held.filter (fun hold => hold.extent.block = other) =
      usage.held.filter fun hold => hold.extent.block = other
  delayed : ∀ other ≠ block, (other ∈ usage'.delayed) = (other ∈ usage.delayed)

theorem ChangesOnly.view (h : ChangesOnly hmp hmp' usage usage' block) (hne : other ≠ block) :
    hmp'.view usage' other = hmp.view usage other := by
  unfold HammerMount.view
  rw [h.layer2 other hne, h.resv other hne, h.allocated other hne,
    h.held other hne, h.delayed other hne]

theorem ChangesOnly.sound (hchange : ChangesOnly hmp hmp' usage usage' block) (h : hmp.Sound usage)
    (hblock : (hmp'.view usage' block).Sound 0) (hnext : ∀ zone, InZone zone (hmp'.nextOffset zone))
    (hheld : ∀ hold ∈ usage'.held, hold.extent.zone ≠ 0) : hmp'.Sound usage' := by
  refine ⟨?_, hnext, hheld⟩
  intro other
  by_cases hother : other = block
  · rw [hother]
    exact hblock
  · rw [hchange.view hother]
    exact h.view other

theorem filter_cons_other (hne : other ≠ extent.block) :
    (extent ::ₘ extents).filter (fun extent => extent.block = other) =
      extents.filter fun extent => extent.block = other :=
  filter_cons_of_neg _ hne.symm

theorem filter_cons_hold (hold : Hold) (held : Multiset Hold) (hne : other ≠ hold.extent.block) :
    (hold ::ₘ held).filter (fun hold => hold.extent.block = other) =
      held.filter fun hold => hold.extent.block = other :=
  filter_cons_of_neg _ hne.symm

/-! ## Operations -/

theorem assignBigblock_spec (h : assignBigblock hmp zone offset = some hmp') :
    hmp'.resv = hmp.resv ∧ hmp'.nextOffset = hmp.nextOffset ∧
      hmp'.layer2 = update hmp.layer2 (bigblock offset)
        { hmp.layer2 (bigblock offset) with zone := zone } := by
  simp only [assignBigblock] at h
  split_ifs at h with hfree hreset hown
  · cases h
    exact ⟨rfl, rfl, rfl⟩
  · cases h
    refine ⟨rfl, rfl, ?_⟩
    rw [← hown]
    exact (update_eq_self _ _).symm

/-- An extent at an offset that a scan has found. -/
structure Extent.Placed (extent : Extent) (zone : ℕ) : Prop where
  zone : extent.zone = zone
  span_pos : 0 < extent.span
  stop_le : extent.stop ≤ hammerLargeblockSize
  same_unit : extent.zoneOffset / boundaryUnit extent.span =
    (extent.zoneOffset + extent.span - 1) / boundaryUnit extent.span

theorem Extent.placed (hzone : InZone zone extent.zoneOffset)
    (hlast : extent.zoneOffset ≠ hammerZoneEncode (zone + 1) 0) (hspan : 0 < extent.span)
    (hunit : extent.zoneOffset / boundaryUnit extent.span =
      (extent.zoneOffset + extent.span - 1) / boundaryUnit extent.span) : extent.Placed zone := by
  refine ⟨?_, hspan, ?_, hunit⟩
  · simp only [InZone, hammerZoneEncode, Extent.zone, hammerZoneDecode, hammerZoneSize] at *
    omega
  · simp only [Extent.stop, Extent.start, hammerLargeblockSize] at *
    rcases boundaryUnit_cases extent.span with ⟨heq, hsmall⟩ | heq
    · rw [heq] at hunit
      omega
    · rw [heq] at hunit
      omega

theorem changesOnly_alloc (usage : Usage) (extent : Extent)
    (hlayer2 : hmp'.layer2 = update hmp.layer2 extent.block layer2)
    (hresv : hmp'.resv = update hmp.resv extent.block resv) :
    ChangesOnly hmp hmp' usage
      { usage with allocated := extent ::ₘ usage.allocated }
      extent.block := by
  refine ⟨?_, ?_, ?_, fun _ _ => rfl, fun _ _ => rfl⟩
  · intro other hne
    rw [hlayer2, update_of_ne hne]
  · intro other hne
    rw [hresv, update_of_ne hne]
  · intro other hne
    exact filter_cons_other hne

theorem view_alloc (usage : Usage) (extent : Extent)
    (hlayer2 : hmp'.layer2 = update hmp.layer2 extent.block layer2)
    (hresv : hmp'.resv = update hmp.resv extent.block resv) :
    hmp'.view { usage with allocated := extent ::ₘ usage.allocated } extent.block =
      { hmp.view usage extent.block with
        layer2 := layer2
        resv := resv
        allocated := extent ::ₘ (hmp.view usage extent.block).allocated } := by
  simp [HammerMount.view, hlayer2, hresv]

theorem commitAlloc_spec (hrefs : ∀ resv, hmp.resv extent.block = some resv →
      resv.refs = holders + if resv.onDelay then 1 else 0)
    (hstop : extent.stop ≤ hammerLargeblockSize)
    (h : commitAlloc hmp delError extent.zone extent.span
      extent.zoneOffset = some hmp') :
    hmp'.nextOffset = hmp.nextOffset ∧ hmp'.layer2 = update hmp.layer2 extent.block
        (Bigblock.takeLayer2 (hmp.layer2 extent.block) extent extent.stop) ∧
      ∃ resv, hmp'.resv = update hmp.resv extent.block resv ∧
        (hmp.resv extent.block = none → resv = none) ∧
        ∀ old, hmp.resv extent.block = some old → Bigblock.Released holders
            { old with
              refs := old.refs + 1
              appendOff := extent.stop
              layer2Free := false } resv := by
  have hblock : bigblock extent.zoneOffset = extent.block := rfl
  have hoffset : extent.zoneOffset % hammerLargeblockSize + extent.span = extent.stop := rfl
  simp only [commitAlloc, hblock, hoffset] at h
  cases hassign : assignBigblock hmp extent.zone extent.zoneOffset with
  | none =>
    rw [hassign] at h
    cases h
  | some hmp1 =>
    obtain ⟨hresv1, hnext1, hlayer1⟩ := assignBigblock_spec hassign
    rw [hblock] at hlayer1
    rw [hassign] at h
    simp only [HammerMount.setLayer2, hresv1, hlayer1, update_self, update_idem] at h
    cases hresv : hmp.resv extent.block with
    | none =>
      simp only [hresv] at h
      cases h
      refine ⟨hnext1, rfl, none, ?_, fun _ => rfl, ?_⟩
      · rw [← hresv, update_eq_self]
      · intro old hold
        cases hold
    | some old =>
      simp only [hresv] at h
      have hcount : old.refs + 1 =
          holders + 1 + if old.onDelay then 1 else 0 := by
        rw [hrefs old hresv]
        omega
      obtain ⟨resv', rfl, hreleased⟩ := reserveComplete_released (setResv_same _ _ _) hcount hstop h
      refine ⟨hnext1, rfl, resv', ?_, ?_, ?_⟩
      · simp [HammerMount.setResv]
      · intro hnone
        cases hnone
      · intro other hother
        cases hother
        exact hreleased

theorem HammerMount.Sound.commitAlloc
    (h : hmp.Sound usage) (hplaced : extent.Placed extent.zone) (hzone : extent.zone ≠ 0)
    (hroom : (hmp.view usage extent.block).Room extent.zone extent.start)
    (hcommit : Hammer.commitAlloc hmp delError extent.zone extent.span
      extent.zoneOffset = some hmp') :
    hmp'.Sound { usage with allocated := extent ::ₘ usage.allocated } ∧
      (hmp'.layer2 extent.block).zone = extent.zone := by
  have hview := h.view extent.block
  have halloc := hview.alloc hroom hzone hplaced.span_pos hplaced.stop_le
  obtain ⟨hnext, hlayer2, resv, hresv, hnone, hsome⟩ :=
    commitAlloc_spec (fun resv hold => (hview.resv resv hold).refs)
      hplaced.stop_le hcommit
  refine ⟨(changesOnly_alloc usage extent hlayer2 hresv).sound h ?_ ?_ h.held_zone, ?_⟩
  · rw [view_alloc usage extent hlayer2 hresv]
    cases hold : hmp.resv extent.block with
    | none =>
      have hsound : ((hmp.view usage extent.block).alloc extent).Sound 0 :=
        halloc.of_no_resv (congrArg (Option.map _) hold)
      rw [hnone hold]
      simpa [Bigblock.alloc, HammerMount.view, hold] using hsound
    | some old =>
      exact halloc.release (congrArg (Option.map _) hold) (hsome old hold)
  · rw [hnext]
    exact h.nextOffset
  · rw [hlayer2, update_self]
    rfl

theorem HammerMount.Sound.setNextOffset (h : hmp.Sound usage) (hzone : InZone zone offset) :
    (hmp.setNextOffset zone offset).Sound usage := by
  refine ⟨h.view, ?_, h.held_zone⟩
  intro other
  by_cases hother : other = zone
  · subst hother
    simpa [HammerMount.setNextOffset, InZone] using hzone
  · simpa [HammerMount.setNextOffset, hother] using h.nextOffset other

theorem Extent.Placed.inZone_stop (h : extent.Placed zone) (hzone : InZone zone extent.zoneOffset)
    (hlast : extent.zoneOffset ≠ hammerZoneEncode (zone + 1) 0) :
    InZone zone (extent.zoneOffset + extent.span) := by
  have hstop := h.stop_le
  simp only [InZone, hammerZoneEncode, Extent.stop, Extent.start, hammerLargeblockSize] at *
  omega

structure Granted (hmp hmp' : HammerMount) (usage : Usage) (zone : ℕ)
    (extent : Extent) : Prop where
  placed : extent.Placed zone
  room : (hmp.view usage extent.block).Room zone extent.start
  owner : (hmp'.layer2 extent.block).zone = zone ∨
    ∃ resv, hmp'.resv extent.block = some resv ∧ resv.zone = zone

theorem inZone_align16 (h : hammerZoneDecode hint = zone) : InZone zone (align16 hint) := by
  simp only [InZone, hammerZoneEncode, align16, hammerZoneDecode, hammerZoneSize] at *
  omega

theorem allocStart_inZone
    (h : hmp.Sound usage) (zone hint : ℕ) : InZone zone (allocStart hmp zone hint).1 := by
  unfold allocStart
  split_ifs with huse
  · exact inZone_align16 huse.2
  · exact h.nextOffset zone

theorem placed_of_scan (h : hmp.Sound usage) (hbytes : 0 < align16 bytes)
    (hmax : align16 bytes ≤ hammerXbufsize) (hzone : InZone zone offset)
    (hscan : scanLoop hmp io avoidVolume zone (align16 bytes) hint fuel 0
      offset useHint = some (.found next useHint')) :
    (⟨next, bytes⟩ : Extent).Placed zone ∧ (hmp.view usage (bigblock next)).Room zone
        (next % hammerLargeblockSize) ∧ InZone zone (next + align16 bytes) := by
  obtain ⟨hzone', hlast, hunit, hroom⟩ := scanLoop_found h hbytes hmax hzone hscan
  have hplaced : (⟨next, bytes⟩ : Extent).Placed zone := Extent.placed hzone' hlast hbytes hunit
  exact ⟨hplaced, hroom, hplaced.inZone_stop hzone' hlast⟩

theorem HammerMount.Sound.alloc (h : hmp.Sound usage)
    (halloc : hammerBlockmapAlloc hmp io delError fuel zone bytes hint = some (hmp', .ok offset)) :
    hmp'.Sound
        { usage with allocated := ⟨offset, bytes⟩ ::ₘ usage.allocated } ∧
      Granted hmp hmp' usage zone ⟨offset, bytes⟩ := by
  simp only [hammerBlockmapAlloc] at halloc
  split_ifs at halloc with hbytes hzones hnext
  have hlow : 8 ≤ zone := hzones.1
  cases hscan : scanLoop hmp io true zone (align16 bytes) hint fuel 0
      (allocStart hmp zone hint).1 (allocStart hmp zone hint).2 with
  | none =>
    rw [hscan] at halloc
    cases halloc
  | some scan =>
    rw [hscan] at halloc
    cases scan with
    | failed error => cases halloc
    | found next useHint =>
      obtain ⟨hplaced, hroom, hstop⟩ := placed_of_scan h hbytes.1
        hbytes.2 (allocStart_inZone h zone hint) hscan
      have hname := hplaced.zone
      simp only [finishAlloc] at halloc
      cases hcommit : Hammer.commitAlloc hmp delError zone
          (align16 bytes) next with
      | none =>
        rw [hcommit] at halloc
        cases halloc
      | some hmp1 =>
        rw [hcommit] at halloc
        cases halloc
        rw [← hname] at hplaced hroom hcommit
        obtain ⟨hsound, howner⟩ := h.commitAlloc hplaced (by omega) hroom hcommit
        rw [hname] at hplaced hroom howner
        split_ifs
        · exact ⟨hsound, hplaced, hroom, Or.inl howner⟩
        · exact ⟨hsound.setNextOffset hstop, hplaced, hroom, Or.inl howner⟩

theorem commitReserve_resv
    (hmp : HammerMount) (usage : Usage) (zone : ℕ) (extent : Extent) (hzone : extent.zone = zone) :
    (commitReserve hmp zone extent.span extent.zoneOffset).resv = update hmp.resv extent.block
        (some ((hmp.view usage extent.block).reserveResv extent)) := by
  have hblock : bigblock extent.zoneOffset = extent.block := rfl
  simp only [commitReserve, HammerMount.setNextOffset, HammerMount.setResv,
    hblock, Bigblock.reserveResv, HammerMount.view]
  cases hmp.resv extent.block with
  | none =>
    subst hzone
    rfl
  | some old => rfl

theorem HammerMount.Sound.commitReserve
    (h : hmp.Sound usage) (hplaced : extent.Placed extent.zone) (hzone : extent.zone ≠ 0)
    (hroom : (hmp.view usage extent.block).Room extent.zone extent.start)
    (hnext : InZone extent.zone (extent.zoneOffset + extent.span)) :
    (Hammer.commitReserve hmp extent.zone extent.span extent.zoneOffset).Sound
      { usage with held := ⟨extent, false⟩ ::ₘ usage.held } := by
  have hresv := commitReserve_resv hmp usage extent.zone extent rfl
  have hreserve := (h.view extent.block).reserve hroom hplaced.span_pos hplaced.stop_le
  have hchange : ChangesOnly hmp
      (Hammer.commitReserve hmp extent.zone extent.span extent.zoneOffset)
      usage { usage with held := ⟨extent, false⟩ ::ₘ usage.held }
      extent.block := by
    refine ⟨fun _ _ => rfl, ?_, fun _ _ => rfl, ?_, fun _ _ => rfl⟩
    · intro other hne
      rw [hresv, update_of_ne hne]
    · intro other hne
      exact filter_cons_hold ⟨extent, false⟩ usage.held hne
  refine hchange.sound h ?_ ?_ ?_
  · have hview : (Hammer.commitReserve hmp extent.zone extent.span extent.zoneOffset).view
          { usage with held := ⟨extent, false⟩ ::ₘ usage.held }
          extent.block =
        (hmp.view usage extent.block).reserve extent := by
      unfold HammerMount.view Bigblock.reserve
      rw [hresv]
      simp [Hammer.commitReserve, HammerMount.setNextOffset, HammerMount.setResv, HammerMount.view]
    rw [hview]
    exact hreserve
  · exact (h.setNextOffset hnext).nextOffset
  · intro hold hmem
    rcases mem_cons.mp hmem with rfl | hmem
    · exact hzone
    · exact h.held_zone hold hmem

theorem HammerMount.Sound.reserve (h : hmp.Sound usage)
    (hreserve : hammerBlockmapReserve hmp io fuel zone bytes = some (hmp', .ok offset)) :
    hmp'.Sound
        { usage with held := ⟨⟨offset, bytes⟩, false⟩ ::ₘ usage.held } ∧
      Granted hmp hmp' usage zone ⟨offset, bytes⟩ := by
  simp only [hammerBlockmapReserve] at hreserve
  split_ifs at hreserve with hzones hnext hbytes
  have hlow : 8 ≤ zone := hzones.1
  cases hscan : scanLoop hmp io false zone (align16 bytes) 0 fuel 0
      (hmp.nextOffset zone) false with
  | none =>
    rw [hscan] at hreserve
    cases hreserve
  | some scan =>
    rw [hscan] at hreserve
    cases scan with
    | failed error => cases hreserve
    | found next useHint =>
      obtain ⟨hplaced, hroom, hstop⟩ := placed_of_scan h hbytes.1 hbytes.2 (h.nextOffset zone) hscan
      have hname := hplaced.zone
      cases hreserve
      have hresv := commitReserve_resv hmp usage zone ⟨offset, bytes⟩ hname
      have hview := h.view (bigblock offset)
      rw [← hname] at hplaced hroom hstop
      have hsound := h.commitReserve hplaced (by omega) hroom hstop
      have hresvZone := (hview.reserveResv hroom).1
      rw [hname] at hplaced hroom hsound hresvZone
      refine ⟨hsound, hplaced, hroom, Or.inr ⟨_, ?_, hresvZone⟩⟩
      exact (congrFun hresv _).trans (update_self _ _ _)

theorem align16_pos (h : 0 < align16 bytes) : bytes ≠ 0 := by
  rintro rfl
  exact absurd h (by decide)

theorem commitFinalize_spec (h : commitFinalize hmp extent.zoneOffset extent.span = some hmp') :
    hmp'.nextOffset = hmp.nextOffset ∧ hmp'.resv = hmp.resv ∧
      hmp'.layer2 = update hmp.layer2 extent.block
        (Bigblock.takeLayer2 (hmp.layer2 extent.block) extent
          (if (hmp.layer2 extent.block).appendOff < extent.stop
            then extent.stop else (hmp.layer2 extent.block).appendOff)) := by
  have hblock : bigblock extent.zoneOffset = extent.block := rfl
  have hoffset : extent.zoneOffset % hammerLargeblockSize + extent.span = extent.stop := rfl
  have hzone : hammerZoneDecode extent.zoneOffset = extent.zone := rfl
  simp only [commitFinalize, hblock, hoffset, hzone] at h
  cases hassign : assignBigblock hmp extent.zone extent.zoneOffset with
  | none =>
    rw [hassign] at h
    cases h
  | some hmp1 =>
    obtain ⟨hresv, hnext, hlayer2⟩ := assignBigblock_spec hassign
    rw [hblock] at hlayer2
    rw [hassign] at h
    cases h
    refine ⟨hnext, hresv, ?_⟩
    simp only [HammerMount.setLayer2, hlayer2, update_self, update_idem]
    rfl

theorem HammerMount.Sound.finalize (h : hmp.Sound usage)
    (hheld : usage.held = ⟨extent, false⟩ ::ₘ held)
    (hfinalize : hammerBlockmapFinalize hmp io (some extent.block)
      extent.zoneOffset extent.bytes = some (hmp', .ok ())) :
    hmp'.Sound
      { usage with
        allocated := extent ::ₘ usage.allocated
        held := ⟨extent, true⟩ ::ₘ held } := by
  have hmem : (⟨extent, false⟩ : Hold) ∈ usage.held := by
    rw [hheld]
    exact mem_cons_self _ _
  have hzone := h.held_zone _ hmem
  have hheldView : (hmp.view usage extent.block).held = ⟨extent, false⟩ ::ₘ
        held.filter fun hold => hold.extent.block = extent.block := by
    simp [HammerMount.view, hheld]
  have hsound := (h.view extent.block).finalize hzone hheldView
  have hspan : 0 < extent.span := by
    refine ((h.view extent.block).held ⟨extent, false⟩ ?_).1
    rw [hheldView]
    exact mem_cons_self _ _
  simp only [hammerBlockmapFinalize] at hfinalize
  rw [if_neg (align16_pos hspan)] at hfinalize
  split_ifs at hfinalize
  · cases hfinalize
  · cases hfinalize
  obtain ⟨hmp1, hcommit, heq⟩ := Option.map_eq_some_iff.mp hfinalize
  cases heq
  obtain ⟨hnext, hresv, hlayer2⟩ := commitFinalize_spec hcommit
  have hresv' : (clearLayer2Free hmp1 (some extent.block)).resv = update hmp.resv extent.block
        ((hmp.resv extent.block).map fun resv =>
          { resv with layer2Free := false }) := by
    simp [clearLayer2Free, HammerMount.setResv, hresv]
  have hchange : ChangesOnly hmp (clearLayer2Free hmp1 (some extent.block)) usage { usage with
        allocated := extent ::ₘ usage.allocated
        held := ⟨extent, true⟩ ::ₘ held } extent.block := by
    refine ⟨?_, ?_, ?_, ?_, fun _ _ => rfl⟩
    · intro other hne
      exact (congrFun hlayer2 other).trans (update_of_ne hne _ _)
    · intro other hne
      rw [hresv', update_of_ne hne]
    · intro other hne
      exact filter_cons_other hne
    · intro other hne
      rw [hheld, filter_cons_hold ⟨extent, false⟩ held hne]
      exact filter_cons_hold ⟨extent, true⟩ held hne
  refine hchange.sound h ?_ ?_ ?_
  · have hview : (clearLayer2Free hmp1 (some extent.block)).view { usage with
            allocated := extent ::ₘ usage.allocated
            held := ⟨extent, true⟩ ::ₘ held } extent.block =
        (hmp.view usage extent.block).finalize extent
          (held.filter fun hold => hold.extent.block = extent.block) := by
      unfold HammerMount.view
      rw [hresv']
      simp [clearLayer2Free, HammerMount.setResv, hlayer2, Bigblock.finalize]
    rw [hview]
    exact hsound
  · intro zone
    exact hnext ▸ h.nextOffset zone
  · intro hold hhold
    rcases mem_cons.mp hhold with rfl | hhold
    · exact hzone
    · apply h.held_zone
      rw [hheld]
      exact mem_cons_of_mem hhold

/-- The usage after an extent is freed: a big-block with no extents left is
delayed. -/
def Usage.free (usage : Usage) (extent : Extent) (rest : Multiset Extent) : Usage :=
  { usage with
    allocated := rest
    delayed := fun block => block ∈ usage.delayed ∨
      block = extent.block ∧ ∀ other ∈ rest, other.block ≠ block }

theorem commitFree_spec
    (usage : Usage) (h : commitFree hmp extent.zoneOffset extent.span = some hmp') :
    hmp'.nextOffset = hmp.nextOffset ∧ ((hmp.layer2 extent.block).bytesFree + extent.span ≠
          (hammerLargeblockSize : ℕ) ∧ hmp'.resv = hmp.resv ∧
        hmp'.layer2 = update hmp.layer2 extent.block
          { hmp.layer2 extent.block with
            bytesFree :=
              (hmp.layer2 extent.block).bytesFree + extent.span } ∨
      (hmp.layer2 extent.block).bytesFree + extent.span = (hammerLargeblockSize : ℕ) ∧
        hmp'.resv = update hmp.resv extent.block
          (some ((hmp.view usage extent.block).delayResv extent.zone)) ∧
        hmp'.layer2 = update hmp.layer2 extent.block
          ⟨0, 0, (hmp.layer2 extent.block).bytesFree + extent.span⟩) := by
  have hblock : bigblock extent.zoneOffset = extent.block := rfl
  have hzone : hammerZoneDecode extent.zoneOffset = extent.zone := rfl
  simp only [commitFree, hblock, hzone] at h
  split_ifs at h with howner hmost hfull
  · cases h
    refine ⟨rfl, Or.inr ⟨hfull, ?_, ?_⟩⟩
    · simp only [HammerMount.setLayer2, HammerMount.setLayer1,
        hammerReserveSetdelayOffset, HammerMount.setResv,
        Bigblock.delayResv, HammerMount.view, update_self, hfull]
      cases hmp.resv extent.block <;> simp
    · simp [HammerMount.setLayer2, HammerMount.setLayer1,
        hammerReserveSetdelayOffset, HammerMount.setResv]
  · cases h
    exact ⟨rfl, Or.inl ⟨hfull, rfl, rfl⟩⟩

theorem filter_rest (h : allocated = extent ::ₘ rest) :
    allocated.filter (fun other => other.block = extent.block) =
      extent ::ₘ rest.filter fun other => other.block = extent.block := by
  rw [h]
  exact filter_cons_of_pos _ rfl

theorem HammerMount.Sound.free (h : hmp.Sound usage)
    (hallocated : usage.allocated = extent ::ₘ rest)
    (hfree : hammerBlockmapFree hmp io extent.zoneOffset extent.bytes = some (hmp', .ok ())) :
    hmp'.Sound (usage.free extent rest) := by
  have hview := h.view extent.block
  have hrest : (hmp.view usage extent.block).allocated =
      extent ::ₘ rest.filter fun other => other.block = extent.block :=
    filter_rest hallocated
  have hspan : 0 < extent.span := by
    refine (hview.allocated extent ?_).1
    rw [hrest]
    exact mem_cons_self _ _
  simp only [hammerBlockmapFree] at hfree
  rw [if_neg (align16_pos hspan)] at hfree
  split_ifs at hfree
  · cases hfree
  · cases hfree
  obtain ⟨hmp1, hcommit, heq⟩ := Option.map_eq_some_iff.mp hfree
  cases heq
  obtain ⟨hnext, hcases⟩ := commitFree_spec usage hcommit
  have hfilter : ∀ other ≠ extent.block, rest.filter (fun extent => extent.block = other) =
        usage.allocated.filter fun extent => extent.block = other := by
    intro other hne
    rw [hallocated, filter_cons_other hne]
  have hdelayed : ∀ other ≠ extent.block, (other ∈ (usage.free extent rest).delayed) =
        (other ∈ usage.delayed) := by
    intro other hne
    apply propext
    constructor
    · rintro (hold | ⟨heq, -⟩)
      · exact hold
      · exact absurd heq hne
    · exact Or.inl
  have hnextZone : ∀ zone, InZone zone (hmp'.nextOffset zone) :=
    fun zone => hnext ▸ h.nextOffset zone
  rcases hcases with ⟨hbytes, hresv, hlayer2⟩ | ⟨hbytes, hresv, hlayer2⟩
  · -- the big-block keeps other extents
    obtain ⟨hsound, hne⟩ := hview.free_some hrest hbytes
    refine ChangesOnly.sound ⟨?_, fun _ _ => by rw [hresv], hfilter, fun _ _ => rfl, hdelayed⟩ h ?_
      hnextZone h.held_zone
    · intro other hother
      rw [hlayer2, update_of_ne hother]
    · have hsame : (extent.block ∈ (usage.free extent rest).delayed) =
          (extent.block ∈ usage.delayed) := by
        apply propext
        constructor
        · rintro (hold | ⟨-, hall⟩)
          · exact hold
          · exfalso
            apply hne
            rw [filter_eq_nil]
            exact hall
        · exact Or.inl
      have hview' : hmp'.view (usage.free extent rest) extent.block =
          { hmp.view usage extent.block with
            layer2 :=
              { (hmp.view usage extent.block).layer2 with
                bytesFree :=
                  (hmp.view usage extent.block).layer2.bytesFree + extent.span }
            allocated :=
              rest.filter fun other => other.block = extent.block } := by
        unfold HammerMount.view
        rw [hsame, hresv, hlayer2, update_self]
        rfl
      rw [hview']
      exact hsound
  · have hsound := hview.free_last extent.zone hrest hbytes
    refine ChangesOnly.sound ⟨?_, ?_, hfilter, fun _ _ => rfl, hdelayed⟩ h ?_ hnextZone h.held_zone
    · intro other hother
      rw [hlayer2, update_of_ne hother]
    · intro other hother
      rw [hresv, update_of_ne hother]
    · have hdelay := hsound.delay (extent.block ∈ (usage.free extent rest).delayed)
        fun _ => hsound.delayed trivial
      have hview' : hmp'.view (usage.free extent rest) extent.block =
          { hmp.view usage extent.block with
            layer2 :=
              ⟨0, 0, (hmp.view usage extent.block).layer2.bytesFree + extent.span⟩
            resv := some
              ((hmp.view usage extent.block).delayResv extent.zone)
            allocated :=
              rest.filter fun other => other.block = extent.block
            delayed :=
              extent.block ∈ (usage.free extent rest).delayed } := by
        unfold HammerMount.view
        rw [hresv, hlayer2, update_self, update_self]
        rfl
      rw [hview']
      exact hdelay

theorem HammerMount.Sound.complete (h : hmp.Sound usage) (hheld : usage.held = hold ::ₘ held)
    (hcomplete : hammerBlockmapReserveComplete hmp delError hold.extent.block = some hmp') :
    hmp'.Sound { usage with held := held } := by
  have hview := h.view hold.extent.block
  have hheldView : (hmp.view usage hold.extent.block).held =
      hold ::ₘ held.filter fun other =>
        other.extent.block = hold.extent.block := by
    simp [HammerMount.view, hheld]
  have hdrop := hview.drop_hold hheldView
  obtain ⟨-, resv, hresv, -⟩ := hview.held hold (by
    rw [hheldView]
    exact mem_cons_self _ _)
  have hsound := hdrop.resv resv hresv
  obtain ⟨resv', rfl, hreleased⟩ := reserveComplete_released hresv hsound.refs hsound.le hcomplete
  have hrelease := hdrop.release hresv hreleased
  have hchange : ChangesOnly hmp (hmp.setResv hold.extent.block resv') usage
      { usage with held := held } hold.extent.block := by
    refine ⟨fun _ _ => rfl, ?_, fun _ _ => rfl, ?_, fun _ _ => rfl⟩
    · intro other hne
      exact update_of_ne hne _ _
    · intro other hne
      rw [hheld, filter_cons_hold hold held hne]
  refine hchange.sound h ?_ h.nextOffset ?_
  · have hview' : (hmp.setResv hold.extent.block resv').view
          { usage with held := held } hold.extent.block =
        { hmp.view usage hold.extent.block with
          held := held.filter fun other =>
            other.extent.block = hold.extent.block
          resv := resv' } := by
      simp [HammerMount.view, HammerMount.setResv]
    rw [hview']
    exact hrelease
  · intro other hmem
    apply h.held_zone
    rw [hheld]
    exact mem_cons_of_mem hmem

/-- The usage after a reservation was taken off the delay list, unless it had to
be queued again. -/
def Usage.clrdelay (usage : Usage) (hmp : HammerMount) (block : ℕ) : Usage :=
  { usage with
    delayed := fun other => other ∈ usage.delayed ∧ (other = block →
        ∃ resv, hmp.resv block = some resv ∧ resv.onDelay = true) }

theorem HammerMount.Sound.clrdelay
    (h : hmp.Sound usage) (hclr : hammerReserveClrdelay hmp delError block = some hmp') :
    hmp'.Sound (usage.clrdelay hmp' block) := by
  have hview := h.view block
  unfold hammerReserveClrdelay at hclr
  cases hresv : hmp.resv block with
  | none =>
    rw [hresv] at hclr
    cases hclr
  | some resv =>
    rw [hresv] at hclr
    simp only at hclr
    split_ifs at hclr with hon
    have hdrop := hview.drop_delay hresv hon
    have hsound := hdrop.resv _ rfl
    obtain ⟨resv', hhmp', hreleased⟩ :=
      reserveComplete_released (setResv_same hmp block _) hsound.refs hsound.le hclr
    have hresv' : hmp'.resv = update hmp.resv block resv' := by
      rw [hhmp']
      simp [HammerMount.setResv]
    have hrest : hmp'.layer2 = hmp.layer2 ∧ hmp'.nextOffset = hmp.nextOffset := by
      rw [hhmp']
      exact ⟨rfl, rfl⟩
    have hrelease := (hdrop.release rfl hreleased).delay
      (block ∈ (usage.clrdelay hmp' block).delayed) (by
        rintro ⟨-, hqueued⟩
        obtain ⟨new, hnew, hnewOn⟩ := hqueued rfl
        rw [hresv', update_self] at hnew
        exact ⟨new, hnew, hnewOn⟩)
    have hchange : ChangesOnly hmp hmp' usage (usage.clrdelay hmp' block)
        block := by
      refine ⟨fun _ _ => by rw [hrest.1], ?_, fun _ _ => rfl,
        fun _ _ => rfl, ?_⟩
      · intro other hne
        rw [hresv', update_of_ne hne]
      · intro other hne
        apply propext
        constructor
        · exact fun hmem => hmem.1
        · exact fun hmem => ⟨hmem, fun heq => absurd heq hne⟩
    refine hchange.sound h ?_ ?_ h.held_zone
    · have hview' : hmp'.view (usage.clrdelay hmp' block) block = { hmp.view usage block with
            resv := resv'
            delayed := block ∈ (usage.clrdelay hmp' block).delayed } := by
        unfold HammerMount.view
        rw [hresv', hrest.1, update_self]
        rfl
      rw [hview']
      exact hrelease
    · intro zone
      rw [hrest.2]
      exact h.nextOffset zone

end DragonFly.Hammer
