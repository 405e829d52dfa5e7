import DragonFly.HammerBlockmapUsage

/-!
# Runs of the HAMMER blockmap

A run interleaves the operations in any order in which callers free, finalize
and release only what they have.  Every extent an operation returns is free of
the extents in use at that point.
-/

namespace DragonFly.Hammer

open Multiset

/-- The operations, by callers that free, finalize and release what they have.
A failed operation changes nothing. -/
inductive BlockmapStep :
    HammerMount × Usage → HammerMount × Usage → Prop
  | alloc {hmp hmp' : HammerMount} {usage : Usage}
      (h : hammerBlockmapAlloc hmp io delError fuel zone bytes hint = some (hmp', .ok offset)) :
      BlockmapStep (hmp, usage)
        (hmp', { usage with
          allocated := ⟨offset, bytes⟩ ::ₘ usage.allocated })
  | reserve {hmp hmp' : HammerMount} {usage : Usage}
      (h : hammerBlockmapReserve hmp io fuel zone bytes = some (hmp', .ok offset)) :
      BlockmapStep (hmp, usage)
        (hmp', { usage with
          held := ⟨⟨offset, bytes⟩, false⟩ ::ₘ usage.held })
  | finalize {hmp hmp' : HammerMount} {usage : Usage}
      (hheld : usage.held = ⟨extent, false⟩ ::ₘ held)
      (h : hammerBlockmapFinalize hmp io (some extent.block)
        extent.zoneOffset extent.bytes = some (hmp', .ok ())) :
      BlockmapStep (hmp, usage)
        (hmp', { usage with
          allocated := extent ::ₘ usage.allocated
          held := ⟨extent, true⟩ ::ₘ held })
  | free {hmp hmp' : HammerMount} {usage : Usage} (hallocated : usage.allocated = extent ::ₘ rest)
      (h : hammerBlockmapFree hmp io extent.zoneOffset extent.bytes = some (hmp', .ok ())) :
      BlockmapStep (hmp, usage) (hmp', usage.free extent rest)
  | complete {hmp hmp' : HammerMount} {usage : Usage} (hheld : usage.held = hold ::ₘ held)
      (h : hammerBlockmapReserveComplete hmp delError hold.extent.block = some hmp') :
      BlockmapStep (hmp, usage) (hmp', { usage with held := held })
  | clrdelay {hmp hmp' : HammerMount} {usage : Usage}
      (h : hammerReserveClrdelay hmp delError block = some hmp') :
      BlockmapStep (hmp, usage) (hmp', usage.clrdelay hmp' block)

variable {hmp hmp' : HammerMount} {usage : Usage}

theorem HammerMount.Sound.step (h : hmp.Sound usage)
    (hstep : BlockmapStep (hmp, usage) (hmp', usage')) : hmp'.Sound usage' := by
  cases hstep with
  | alloc halloc => exact (h.alloc halloc).1
  | reserve hreserve => exact (h.reserve hreserve).1
  | finalize hheld hfinalize => exact h.finalize hheld hfinalize
  | free hallocated hfree => exact h.free hallocated hfree
  | complete hheld hcomplete => exact h.complete hheld hcomplete
  | clrdelay hclr => exact h.clrdelay hclr

/-- A mount whose layer 2 entries describe the extents allocated on it. -/
structure Mounted (hmp : HammerMount) (allocated : Multiset Extent) :
    Prop where
  resv : ∀ block, hmp.resv block = none
  nextOffset : ∀ zone, hammerZoneEncode zone 0 ≤ hmp.nextOffset zone ∧
    hmp.nextOffset zone ≤ hammerZoneEncode (zone + 1) 0
  appendOff_le : ∀ block, (hmp.layer2 block).appendOff ≤ hammerLargeblockSize
  free : ∀ block, (hmp.layer2 block).zone = 0 →
    (hmp.layer2 block).bytesFree = (hammerLargeblockSize : ℕ) ∧ (hmp.layer2 block).appendOff = 0
  counted : ∀ block, (hmp.layer2 block).bytesFree = hammerLargeblockSize - usedBytes
        (allocated.filter fun extent => extent.block = block) ∨
    (hmp.layer2 block).zone ≠ 0 ∧ (hmp.layer2 block).appendOff = hammerLargeblockSize ∧
      ∀ extent ∈ allocated, extent.block ≠ block
  allocated : ∀ extent ∈ allocated, 0 < extent.span ∧ (hmp.layer2 extent.block).zone = extent.zone ∧
      extent.stop ≤ (hmp.layer2 extent.block).appendOff

theorem Mounted.sound
    {allocated : Multiset Extent} (h : Mounted hmp allocated) : hmp.Sound ⟨allocated, 0, ∅⟩ := by
  refine ⟨?_, h.nextOffset, ?_⟩
  · intro block
    refine ⟨h.appendOff_le block, h.free block, ?_, ?_, ?_, ?_, ?_⟩
    · rcases h.counted block with hcount | ⟨hzone, happend, hnone⟩
      · exact Or.inl hcount
      · refine Or.inr ⟨hzone, happend, h.resv block, ?_⟩
        rw [HammerMount.view, filter_eq_nil]
        exact hnone
    · intro extent hmem
      obtain ⟨hmem', rfl⟩ := mem_filter.mp hmem
      exact h.allocated extent hmem'
    · intro resv hresv
      have hnone : hmp.resv block = some resv := hresv
      rw [h.resv block] at hnone
      cases hnone
    · intro hold hmem
      exact absurd (mem_of_mem_filter hmem) (notMem_zero _)
    · exact False.elim
  · intro hold hmem
    exact absurd hmem (notMem_zero _)

inductive BlockmapReached : HammerMount → Usage → Prop
  | mount {hmp : HammerMount} {allocated : Multiset Extent}
      (h : Mounted hmp allocated) : BlockmapReached hmp ⟨allocated, 0, ∅⟩
  | step {hmp hmp' : HammerMount} {usage usage' : Usage}
      (hreached : BlockmapReached hmp usage)
      (hstep : BlockmapStep (hmp, usage) (hmp', usage')) :
      BlockmapReached hmp' usage'

theorem BlockmapReached.sound (h : BlockmapReached hmp usage) : hmp.Sound usage := by
  induction h with
  | mount h => exact h.sound
  | step _ hstep ih => exact ih.step hstep

/-! ## Live space is not handed out again -/

theorem Extent.mem_raw {extent : Extent} {byte : ℕ} :
    byte ∈ extent.raw ↔ extent.block * hammerLargeblockSize + extent.start ≤ byte ∧
        byte < extent.block * hammerLargeblockSize + extent.stop := by
  simp only [Extent.raw, Set.mem_Ico, Extent.block, bigblock, Extent.start,
    Extent.stop, hammerZoneSize, hammerLargeblockSize]
  omega

theorem HammerMount.Sound.live (h : hmp.Sound usage) (hlive : usage.Live extent) :
    extent.stop ≤ hammerLargeblockSize ∧
      ∀ zone offset, (hmp.view usage extent.block).Room zone offset → extent.stop ≤ offset := by
  have hview := h.view extent.block
  rcases hlive with hmem | hmem
  · have hmem' : extent ∈ (hmp.view usage extent.block).allocated := mem_filter.mpr ⟨hmem, rfl⟩
    refine ⟨(hview.allocated extent hmem').2.2.trans hview.appendOff_le, ?_⟩
    intro zone offset hroom
    exact (hview.stop_le hroom).1 extent hmem'
  · have hmem' : (⟨extent, false⟩ : Hold) ∈ (hmp.view usage extent.block).held :=
      mem_filter.mpr ⟨hmem, rfl⟩
    obtain ⟨-, resv, hresv, -, hstop⟩ := hview.held _ hmem'
    refine ⟨hstop.trans (hview.resv resv hresv).le, ?_⟩
    intro zone offset hroom
    exact (hview.stop_le hroom).2 _ hmem'

theorem Granted.disjoint (h : hmp.Sound usage) (hgranted : Granted hmp hmp' usage zone extent)
    (hlive : usage.Live other) : Disjoint extent.raw other.raw := by
  obtain ⟨hother, hbefore⟩ := h.live hlive
  have hstop := hgranted.placed.stop_le
  rw [Set.disjoint_left]
  intro byte hbyte hbyte'
  rw [Extent.mem_raw] at hbyte hbyte'
  by_cases hblock : other.block = extent.block
  · -- in the same big-block the live extent ends before the append point
    rw [hblock] at hbefore hbyte'
    have hle := hbefore zone extent.start hgranted.room
    omega
  · simp only [hammerLargeblockSize] at *
    omega

inductive HandsOut (hmp hmp' : HammerMount) (zone : ℕ) : Extent → Prop
  | alloc {io : Bread} {delError : Bool}
      (h : hammerBlockmapAlloc hmp io delError fuel zone bytes hint = some (hmp', .ok offset)) :
      HandsOut hmp hmp' zone ⟨offset, bytes⟩
  | reserve {io : Bread} {fuel bytes offset : ℕ}
      (h : hammerBlockmapReserve hmp io fuel zone bytes =
        some (hmp', .ok offset)) : HandsOut hmp hmp' zone ⟨offset, bytes⟩

/-- An extent that is handed out overlaps no extent in use, lies in a big-block
of the zone, does not cross a buffer or a big-block, and is not at the start of
a big-block whose freed extents are still delayed. -/
theorem BlockmapReached.handsOut_free_space
    {hmp hmp' : HammerMount} {usage : Usage} {zone : ℕ} {extent : Extent}
    (h : BlockmapReached hmp usage) (hout : HandsOut hmp hmp' zone extent) :
    (∀ other, usage.Live other → Disjoint extent.raw other.raw) ∧ extent.zone = zone ∧
      (((hmp.layer2 extent.block).zone = 0 ∨ (hmp.layer2 extent.block).zone = zone) ∧
        (∀ resv, hmp.resv extent.block = some resv → resv.zone = zone) ∧
        ((hmp'.layer2 extent.block).zone = zone ∨
          ∃ resv, hmp'.resv extent.block = some resv ∧ resv.zone = zone)) ∧
      (extent.span ≤ hammerBufsize → extent.zoneOffset / hammerBufsize =
          (extent.zoneOffset + extent.span - 1) / hammerBufsize) ∧
      extent.zoneOffset / hammerLargeblockSize =
        (extent.zoneOffset + extent.span - 1) / hammerLargeblockSize ∧
      (extent.block ∈ usage.delayed → extent.start ≠ 0) := by
  have hsound := h.sound
  have hgranted : Granted hmp hmp' usage zone extent := by
    cases hout with
    | alloc halloc => exact (hsound.alloc halloc).2
    | reserve hreserve => exact (hsound.reserve hreserve).2
  have hroom := hgranted.room
  refine ⟨fun other => hgranted.disjoint hsound, hgranted.placed.zone,
    ⟨hroom.owner, fun resv hresv => (hroom.resv resv hresv).1, hgranted.owner⟩, ?_, ?_, ?_⟩
  · intro hsmall
    have hunit := hgranted.placed.same_unit
    rwa [boundaryUnit, if_pos hsmall] at hunit
  · have hpos := hgranted.placed.span_pos
    have hstop := hgranted.placed.stop_le
    simp only [Extent.stop, Extent.start, hammerLargeblockSize] at hstop ⊢
    omega
  · intro hdelayed
    exact ((hsound.view extent.block).start_pos hroom hdelayed).ne'

def formatted : HammerMount :=
  { nextOffset := fun zone => hammerZoneEncode zone 0
    layer1 := fun _ => ⟨true, 0, 1⟩
    layer2 := fun _ => ⟨0, 0, (hammerLargeblockSize : ℕ)⟩
    resv := fun _ => none
    volumeToRemove := -1 }

theorem formatted_mounted : Mounted formatted 0 := by
  refine ⟨fun _ => rfl, ?_, fun _ => Nat.zero_le _, fun _ _ => ⟨rfl, rfl⟩, ?_, ?_⟩
  · intro zone
    simp only [formatted, hammerZoneEncode]
    omega
  · intro block
    left
    simp [formatted, usedBytes]
  · intro extent hmem
    exact absurd hmem (notMem_zero _)

/-- A reservation is followed by an allocation of the same zone. -/
theorem BlockmapReached.formatted_disjoint :
    ∃ hmp hmp' : HammerMount, HandsOut formatted hmp 10 ⟨hammerZoneEncode 10 0, 100⟩ ∧
      HandsOut hmp hmp' 10 ⟨hammerZoneEncode 10 112, 65536⟩ ∧
      Disjoint (Extent.raw ⟨hammerZoneEncode 10 112, 65536⟩)
        (Extent.raw ⟨hammerZoneEncode 10 0, 100⟩) := by
  have hreads : ∃ io : Bread, io = ⟨fun _ => false, fun _ => false⟩ := ⟨_, rfl⟩
  obtain ⟨io, hio⟩ := hreads
  have hfirst : ∃ hmp, hammerBlockmapReserve formatted io 2 10 100 =
      some (hmp, .ok (hammerZoneEncode 10 0)) := by
    subst hio
    exact ⟨_, rfl⟩
  obtain ⟨hmp, hreserve⟩ := hfirst
  have hsecond : ∃ hmp', hammerBlockmapAlloc hmp io false 3 10 65536 0 =
      some (hmp', .ok (hammerZoneEncode 10 112)) := by
    subst hio
    cases hreserve
    exact ⟨_, rfl⟩
  obtain ⟨hmp', halloc⟩ := hsecond
  have hreached := BlockmapReached.step (.mount formatted_mounted) (.reserve hreserve)
  refine ⟨hmp, hmp', .reserve hreserve, .alloc halloc, ?_⟩
  refine (hreached.handsOut_free_space (.alloc halloc)).1 _ (Or.inr ?_)
  simp

end DragonFly.Hammer
