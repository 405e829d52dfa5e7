import DragonFly.HammerFifo

/-!
# The HAMMER blockmap

Layer 2 has an entry for each big-block, and a big-block can also have a
reservation in memory.  Both are indexed by the number of the big-block, which
is its raw offset divided by the size of a big-block.  Offsets are natural
numbers: the end of zone 15 is `2 ^ 64`, which the source sees as zero on both
sides of its comparison.

CRCs are left out since they are recomputed with every change.  `none` is a
panic.  An operation runs with `blkmap_lock` held, so a check made before
taking the lock and again after it is made once.
-/

namespace DragonFly.Hammer

open Function

def hammerXbufsize : ℕ := 65536
def hammerLargeblockSize : ℕ := 8388608
def hammerHintblockSize : ℕ := 4 * 8388608
/-- The bytes described by one layer 1 entry. -/
def hammerBlockmapLayer2 : ℕ := 4398046511104
def hammerZoneSize : ℕ := 1152921504606846976

def hammerZoneBtreeIndex : ℕ := 8
def hammerMaxZones : ℕ := 16

structure BlockmapLayer1 where
  /-- `phys_offset` is not `HAMMER_BLOCKMAP_UNAVAIL`. -/
  available : Bool
  volume : ℤ
  blocksFree : ℤ
  deriving DecidableEq

structure BlockmapLayer2 where
  zone : ℕ
  appendOff : ℕ
  bytesFree : ℤ
  deriving DecidableEq

structure HammerReserve where
  refs : ℕ
  zone : ℕ
  appendOff : ℕ
  layer2Free : Bool
  onDelay : Bool
  deriving DecidableEq

structure HammerMount where
  nextOffset : ℕ → ℕ
  layer1 : ℕ → BlockmapLayer1
  layer2 : ℕ → BlockmapLayer2
  resv : ℕ → Option HammerReserve
  volumeToRemove : ℤ

/-- The reads of layer 1 and layer 2 buffers that fail during an operation. -/
structure Bread where
  layer1 : ℕ → Bool
  layer2 : ℕ → Bool

def hammerZoneDecode (offset : ℕ) : ℕ :=
  offset / hammerZoneSize

def bigblock (offset : ℕ) : ℕ :=
  offset % hammerZoneSize / hammerLargeblockSize

def layer1Index (offset : ℕ) : ℕ :=
  offset % hammerZoneSize / hammerBlockmapLayer2

def align16 (bytes : ℕ) : ℕ :=
  (bytes + 15) / 16 * 16

section

variable (hmp : HammerMount)

def HammerMount.setLayer1 (i : ℕ) (layer1 : BlockmapLayer1) : HammerMount :=
  { hmp with layer1 := update hmp.layer1 i layer1 }

def HammerMount.setLayer2 (block : ℕ) (layer2 : BlockmapLayer2) : HammerMount :=
  { hmp with layer2 := update hmp.layer2 block layer2 }

def HammerMount.setResv (block : ℕ) (resv : Option HammerReserve) : HammerMount :=
  { hmp with resv := update hmp.resv block resv }

def HammerMount.setNextOffset (zone offset : ℕ) : HammerMount :=
  { hmp with nextOffset := update hmp.nextOffset zone offset }

/-! ## Looking for space -/

/-- What one pass over an offset decides. -/
inductive Pass
  | again (nextOffset : ℕ)
  | found
  | failed (error : Errno)
  | panic
  deriving DecidableEq

/-- The unit an extent of the given size must not cross. -/
def boundaryUnit (bytes : ℕ) : ℕ :=
  if bytes ≤ hammerBufsize then hammerBufsize else hammerLargeblockSize

def checkResv (zone nextOffset : ℕ) : Option HammerReserve → Pass
  | none => .found
  | some resv =>
    let offset := nextOffset % hammerLargeblockSize
    if resv.zone ≠ zone then
      .again ((nextOffset + hammerLargeblockSize) / hammerLargeblockSize * hammerLargeblockSize)
    else if offset < resv.appendOff then
      .again (nextOffset + (resv.appendOff - offset))
    else .found

def checkLayer2 (zone nextOffset : ℕ) : Pass :=
  let offset := nextOffset % hammerLargeblockSize
  let layer2 := hmp.layer2 (bigblock nextOffset)
  if layer2.zone ≠ 0 ∧ layer2.zone ≠ zone then
    .again (nextOffset + (hammerLargeblockSize - offset))
  else if offset < layer2.appendOff then
    .again (nextOffset + (layer2.appendOff - offset))
  else checkResv zone nextOffset (hmp.resv (bigblock nextOffset))

/-- The body of the `again` loop after the check for a wrap.  Only
`hammer_blockmap_alloc` avoids the volume that is being removed. -/
def scanPass (io : Bread) (avoidVolume : Bool) (zone bytes nextOffset : ℕ) : Pass :=
  let tmpOffset := nextOffset + bytes - 1
  let unit := boundaryUnit bytes
  let layer1 := hmp.layer1 (layer1Index nextOffset)
  let nextLayer1 := (nextOffset + hammerBlockmapLayer2) /
    hammerBlockmapLayer2 * hammerBlockmapLayer2
  if nextOffset / unit ≠ tmpOffset / unit then
    .again (tmpOffset / unit * unit)
  else if io.layer1 (layer1Index nextOffset) then .failed .eio
  else if nextOffset % hammerLargeblockSize = 0 ∧ layer1.blocksFree = 0 then
    .again nextLayer1
  else if layer1.available = false then .panic
  else if avoidVolume ∧ layer1.volume = hmp.volumeToRemove then
    .again nextLayer1
  else if io.layer2 (bigblock nextOffset) then .failed .eio
  else checkLayer2 hmp zone nextOffset

inductive Scan
  | found (nextOffset : ℕ) (useHint : Bool)
  | failed (error : Errno)
  deriving DecidableEq

def leaveHint (zone hint nextOffset : ℕ) (useHint : Bool) : ℕ × Bool :=
  if useHint ∧ nextOffset / hammerHintblockSize ≠
      hint / hammerHintblockSize then
    (hmp.nextOffset zone, false)
  else (nextOffset, useHint)

end

def wrapZone (zone loops nextOffset : ℕ) : Option (ℕ × ℕ) :=
  if nextOffset = hammerZoneEncode (zone + 1) 0 then
    if loops + 1 = 2 then none else some (loops + 1, hammerZoneEncode zone 0)
  else some (loops, nextOffset)

/-- The `again` loop, for as many passes as there is fuel; `none` is also the
outcome of a loop that is not done by then. -/
def scanLoop (hmp : HammerMount) (io : Bread) (avoidVolume : Bool)
    (zone bytes hint : ℕ) : ℕ → ℕ → ℕ → Bool → Option Scan
  | 0, _, _, _ => none
  | fuel + 1, loops, nextOffset, useHint =>
    let start := leaveHint hmp zone hint nextOffset useHint
    match wrapZone zone loops start.1 with
    | none => some (.failed .enospc)
    | some (loops, nextOffset) =>
      match scanPass hmp io avoidVolume zone bytes nextOffset with
      | .again nextOffset =>
        scanLoop hmp io avoidVolume zone bytes hint fuel loops nextOffset start.2
      | .found => some (.found nextOffset start.2)
      | .failed error => some (.failed error)
      | .panic => none

/-! ## Reservations -/

def hammerReserveSetdelay (resv : HammerReserve) : HammerReserve :=
  if resv.onDelay then resv
  else { resv with refs := resv.refs + 1, onDelay := true }

/-- With the last reference the buffers of a big-block that is still free are
deleted, and `delError` is the outcome.  A failure requeues the delay. -/
def disposeBuffers (delError : Bool) (resv : HammerReserve) : HammerReserve :=
  if resv.refs = 1 ∧ resv.layer2Free then
    let resv := { resv with appendOff := hammerLargeblockSize }
    if delError then hammerReserveSetdelay resv else resv
  else resv

section

variable (hmp : HammerMount)

section

variable (delError : Bool)

def hammerBlockmapReserveComplete (block : ℕ) : Option HammerMount :=
  match hmp.resv block with
  | none => none
  | some resv =>
    if resv.refs = 0 then none
    else
      let resv := disposeBuffers delError resv
      if resv.refs - 1 = 0 then
        if resv.onDelay then none else some (hmp.setResv block none)
      else
        some (hmp.setResv block (some { resv with refs := resv.refs - 1 }))

def hammerReserveSetdelayOffset (block zone : ℕ) : HammerMount :=
  let free : Bool :=
    (hmp.layer2 block).bytesFree = (hammerLargeblockSize : ℕ)
  let resv : HammerReserve :=
    match hmp.resv block with
    | none =>
      { refs := 0
        zone := zone
        appendOff := hammerLargeblockSize
        layer2Free := free
        onDelay := false }
    | some resv =>
      if free then { resv with layer2Free := true } else resv
  hmp.setResv block (some (hammerReserveSetdelay resv))

def hammerReserveClrdelay (block : ℕ) : Option HammerMount :=
  match hmp.resv block with
  | none => none
  | some resv =>
    if resv.onDelay then
      hammerBlockmapReserveComplete (hmp.setResv block (some { resv with onDelay := false }))
        delError block
    else none

/-! ## Operations -/

def assignBigblock (zone offset : ℕ) : Option HammerMount :=
  let layer1 := hmp.layer1 (layer1Index offset)
  let layer2 := hmp.layer2 (bigblock offset)
  if layer2.zone = 0 then
    if layer2.bytesFree = (hammerLargeblockSize : ℕ) ∧
        layer2.appendOff = 0 then
      some ((hmp.setLayer1 (layer1Index offset)
        { layer1 with blocksFree := layer1.blocksFree - 1 }).setLayer2
          (bigblock offset) { layer2 with zone := zone })
    else none
  else if layer2.zone = zone then some hmp
  else none

/-- The changes of `hammer_blockmap_alloc` once it has found an offset. -/
def commitAlloc (zone bytes nextOffset : ℕ) : Option HammerMount :=
  let offset := nextOffset % hammerLargeblockSize
  let block := bigblock nextOffset
  match assignBigblock hmp zone nextOffset with
  | none => none
  | some hmp =>
    let layer2 := hmp.layer2 block
    let hmp := hmp.setLayer2 block
      { layer2 with
        bytesFree := layer2.bytesFree - bytes
        appendOff := offset + bytes }
    match hmp.resv block with
    | none => some hmp
    | some resv =>
      hammerBlockmapReserveComplete (hmp.setResv block (some
          { resv with
            refs := resv.refs + 1
            appendOff := offset + bytes
            layer2Free := false })) delError block

/-- The offset the scan starts at, and whether it comes from the hint. -/
def allocStart (zone hint : ℕ) : ℕ × Bool :=
  if hint ≠ 0 ∧ hammerZoneDecode hint = zone then (align16 hint, true)
  else (hmp.nextOffset zone, false)

def finishAlloc (zone bytes : ℕ) : Option Scan → Option (HammerMount × Except Errno ℕ)
  | none => none
  | some (.failed error) => some (hmp, .error error)
  | some (.found nextOffset useHint) =>
    match commitAlloc hmp delError zone bytes nextOffset with
    | none => none
    | some hmp =>
      some (if useHint then hmp
        else hmp.setNextOffset zone (nextOffset + bytes), .ok nextOffset)

end

variable (io : Bread)

def hammerBlockmapAlloc (delError : Bool)
    (fuel zone bytes hint : ℕ) : Option (HammerMount × Except Errno ℕ) :=
  let bytes := align16 bytes
  if ¬(0 < bytes ∧ bytes ≤ hammerXbufsize) then none
  else if ¬(hammerZoneBtreeIndex ≤ zone ∧ zone < hammerMaxZones) then none
  else if hammerZoneDecode (hmp.nextOffset zone) ≠ zone then none
  else
    finishAlloc hmp delError zone bytes (scanLoop hmp io true zone bytes hint fuel 0
        (allocStart hmp zone hint).1 (allocStart hmp zone hint).2)

/-- The changes of `hammer_blockmap_reserve` once it has found an offset. -/
def commitReserve (zone bytes nextOffset : ℕ) : HammerMount :=
  let offset := nextOffset % hammerLargeblockSize
  let block := bigblock nextOffset
  let resv : HammerReserve :=
    match hmp.resv block with
    | some resv => { resv with refs := resv.refs + 1 }
    | none =>
      { refs := 1
        zone := zone
        appendOff := 0
        layer2Free :=
          (hmp.layer2 block).bytesFree = (hammerLargeblockSize : ℕ)
        onDelay := false }
  (hmp.setResv block (some { resv with appendOff := offset + bytes })).setNextOffset zone
      (nextOffset + bytes)

def finishReserve (zone bytes : ℕ) : Option Scan → Option (HammerMount × Except Errno ℕ)
  | none => none
  | some (.failed error) => some (hmp, .error error)
  | some (.found nextOffset _) =>
    some (commitReserve hmp zone bytes nextOffset, .ok nextOffset)

/-- The reservation handed out is that of the big-block of the offset. -/
def hammerBlockmapReserve (fuel zone bytes : ℕ) : Option (HammerMount × Except Errno ℕ) :=
  let bytes := align16 bytes
  if ¬(hammerZoneBtreeIndex ≤ zone ∧ zone < hammerMaxZones) then none
  else if hammerZoneDecode (hmp.nextOffset zone) ≠ zone then none
  else if ¬(0 < bytes ∧ bytes ≤ hammerXbufsize) then none
  else
    finishReserve hmp zone bytes
      (scanLoop hmp io false zone bytes 0 fuel 0 (hmp.nextOffset zone) false)

/-- The layer 2 entry after a finalization, which can occur out of order or
combined with allocations. -/
def commitFinalize (zoneOffset bytes : ℕ) : Option HammerMount :=
  let block := bigblock zoneOffset
  let offset := zoneOffset % hammerLargeblockSize + bytes
  match assignBigblock hmp (hammerZoneDecode zoneOffset) zoneOffset with
  | none => none
  | some hmp =>
    let layer2 := hmp.layer2 block
    some (hmp.setLayer2 block
      { layer2 with
        bytesFree := layer2.bytesFree - bytes
        appendOff :=
          if layer2.appendOff < offset then offset
          else layer2.appendOff })

/-- The reservation of big-block `resv` is no longer one of a free big-block. -/
def clearLayer2Free : Option ℕ → HammerMount
  | none => hmp
  | some resv =>
    hmp.setResv resv ((hmp.resv resv).map fun resv =>
      { resv with layer2Free := false })

def hammerBlockmapFinalize (resv : Option ℕ) (zoneOffset bytes : ℕ) :
    Option (HammerMount × Except Errno Unit) :=
  let zone := hammerZoneDecode zoneOffset
  if bytes = 0 then some (hmp, .ok ())
  else if ¬align16 bytes ≤ hammerXbufsize then none
  else if ¬(hammerZoneBtreeIndex ≤ zone ∧ zone < hammerMaxZones) then none
  else if io.layer1 (layer1Index zoneOffset) then some (hmp, .error .eio)
  else if (hmp.layer1 (layer1Index zoneOffset)).available = false then none
  else if io.layer2 (bigblock zoneOffset) then some (hmp, .error .eio)
  else
    (commitFinalize hmp zoneOffset (align16 bytes)).map fun hmp =>
      (clearLayer2Free hmp resv, .ok ())

def commitFree (zoneOffset bytes : ℕ) : Option HammerMount :=
  let zone := hammerZoneDecode zoneOffset
  let block := bigblock zoneOffset
  let layer1 := hmp.layer1 (layer1Index zoneOffset)
  let layer2 := hmp.layer2 block
  let bytesFree := layer2.bytesFree + bytes
  let hmp := hmp.setLayer2 block { layer2 with bytesFree := bytesFree }
  if layer2.zone ≠ zone then none
  else if ¬bytesFree ≤ (hammerLargeblockSize : ℕ) then none
  else if bytesFree = (hammerLargeblockSize : ℕ) then
    -- the big-block is free: cover it, then reset its entry
    let hmp := hammerReserveSetdelayOffset hmp block zone
    some ((hmp.setLayer1 (layer1Index zoneOffset)
      { layer1 with blocksFree := layer1.blocksFree + 1 }).setLayer2 block
        { zone := 0, appendOff := 0, bytesFree := bytesFree })
  else some hmp

/-- Release the space of an extent.  An error leaves the extent allocated. -/
def hammerBlockmapFree (zoneOffset bytes : ℕ) : Option (HammerMount × Except Errno Unit) :=
  let zone := hammerZoneDecode zoneOffset
  if bytes = 0 then some (hmp, .ok ())
  else if ¬align16 bytes ≤ hammerXbufsize then none
  else if zoneOffset / hammerLargeblockSize ≠
      (zoneOffset + (align16 bytes - 1)) / hammerLargeblockSize then none
  else if ¬(hammerZoneBtreeIndex ≤ zone ∧ zone < hammerMaxZones) then none
  else if io.layer1 (layer1Index zoneOffset) then some (hmp, .error .eio)
  else if (hmp.layer1 (layer1Index zoneOffset)).available = false then none
  else if io.layer2 (bigblock zoneOffset) then some (hmp, .error .eio)
  else
    (commitFree hmp zoneOffset (align16 bytes)).map fun hmp => (hmp, .ok ())

end

end DragonFly.Hammer
