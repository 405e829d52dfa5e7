import DragonFly.HammerUndoFifo
import DragonFly.PatchLog

/-!
# UNDO generation and rollback

A modification of the media first hands the old contents of the range to
`hammer_generate_undo`, which may drop the request because the undo history
holds the offset with at least that length, and then overwrites the range.
Recovery runs the UNDO records laid down since in reverse order.
-/

namespace DragonFly.Hammer

open PatchLog List Option

def hammerMaxUndos : ℕ := 1024

structure HammerUndo where
  offset : ℕ
  bytes : ℕ
  deriving DecidableEq

/-- Enter a range into the undo history, whose nodes are kept in LRU order. -/
def hammerEnterUndoHistory (undoLruList : List HammerUndo)
    (offset bytes : ℕ) : List HammerUndo × Option Errno :=
  match undoLruList.find? fun node => node.offset = offset with
  | some node =>
    if bytes ≤ node.bytes then
      (undoLruList.erase node ++ [node], some .ealready)
    else
      (undoLruList.erase node ++ [{ node with bytes := bytes }], none)
  | none =>
    let undoLruList :=
      if undoLruList.length ≠ hammerMaxUndos then undoLruList
      else undoLruList.tail
    (undoLruList ++ [⟨offset, bytes⟩], none)

/-- The mount as far as UNDO generation sees it.  `redoFifoStart` is the oldest
REDO of any inode, or zero. -/
structure UndoMount where
  version : ℕ
  writer : UndoWriter
  diskFirstOffset : ℕ
  undoLruList : List HammerUndo
  redoSync : Bool
  redoFifoStart : ℕ
  media : ℕ → UInt8

namespace UndoMount

variable (mount : UndoMount)

def hammerUndoMax : ℕ :=
  mount.writer.fifo.allocOffset % 2 ^ 52

def usedBytes : ℕ :=
  if mount.diskFirstOffset ≤ mount.writer.nextOffset then
    mount.writer.nextOffset - mount.diskFirstOffset
  else
    mount.writer.fifo.allocOffset - mount.diskFirstOffset + offLongMask mount.writer.nextOffset

/-- FIFO space in use; `none` is a failed `KKASSERT`. -/
def hammerUndoUsed : Option ℕ :=
  if mount.usedBytes ≤ mount.hammerUndoMax then some mount.usedBytes
  else none

/-- The panic check made before `len` bytes are laid down. -/
def undoSpaceOk (len : ℕ) : Bool :=
  match mount.hammerUndoUsed with
  | none => false
  | some used =>
    !decide ((mount.hammerUndoMax : ℤ) - used < len + hammerBufsize * 3)

def hammerGenerateRedoSync : Option UndoMount :=
  if mount.redoFifoStart ≠ 0 then
    if mount.undoSpaceOk 0 then
      (UndoWriter.layRedos 0 0 .sync 2 mount.writer mount.redoFifoStart
        none 0).map fun writer =>
          { mount with writer := writer, redoSync := true }
    else none
  else some mount

def syncRedo : Option UndoMount :=
  if !mount.redoSync && decide (4 ≤ mount.version) then
    mount.hammerGenerateRedoSync
  else some mount

/-- `none` is a panic. -/
def hammerGenerateUndo (zoneOff : ℕ) (base : List UInt8) : Option UndoMount :=
  match mount.syncRedo with
  | none => none
  | some mount =>
    match hammerEnterUndoHistory mount.undoLruList zoneOff
        base.length with
    | (undoLruList, some _) =>
      some { mount with undoLruList := undoLruList }
    | (undoLruList, none) =>
      if mount.undoSpaceOk base.length then
        (mount.writer.layUndos (2 * base.length + 2) zoneOff base).map
          fun writer =>
            { mount with writer := writer, undoLruList := undoLruList }
      else none

def modify (change : Patch UInt8) : Option UndoMount :=
  (mount.hammerGenerateUndo change.offset
    (readRange mount.media change.offset change.data.length)).map
      fun mount => { mount with media := change.write mount.media }

def modifyAll : UndoMount → List (Patch UInt8) → Option UndoMount
  | mount, [] => some mount
  | mount, change :: changes =>
    match mount.modify change with
    | none => none
    | some mount => modifyAll mount changes

end UndoMount

def hammerEncodeRawVolume (volNo offset : ℕ) : ℕ :=
  hammerZoneEncode 1 (volNo % 256 * 2 ^ 52 + offset % 2 ^ 52)

/-- Run one record of the FIFO backwards.  Zone 1 is the volume header of the
volume in the offset, zone 2 a buffer. -/
def hammerRecoverUndo (media : ℕ → UInt8) (head : HammerFifoHead) : Except Errno (ℕ → UInt8) :=
  match head.any with
  | .undo undo =>
    if head.hdrSize < undoOverhead ∨
        undo.undoDataBytes > head.hdrSize - undoOverhead then
      .error .eio
    else
      let zone := undo.undoOffset / 2 ^ 60
      let offset := undo.undoOffset % hammerBufsize
      let data := undo.undoData.take undo.undoDataBytes
      if offset + undo.undoDataBytes > hammerBufsize then
        .error .eio
      else if zone = 1 then
        let volNo := undo.undoOffset / 2 ^ 52 % 256
        let address := hammerEncodeRawVolume volNo offset
        .ok ((⟨address, data⟩ : Patch UInt8).write media)
      else if zone = 2 then
        let address := undo.undoOffset / hammerBufsize * hammerBufsize
        .ok ((⟨address + offset, data⟩ : Patch UInt8).write media)
      else .error .eio
  | _ => .ok media

/-- The reverse scan of stage 1; `none` is a failed `KKASSERT`. -/
def runUndos (fifo : UndoFifo) (firstOffset : ℕ) :
    ℕ → ℕ → ℤ → (ℕ → UInt8) → Option (Except Errno (ℕ → UInt8))
  | 0, _, _, _ => none
  | fuel + 1, scanOffset, bytes, media =>
    if bytes > 0 then
      if scanOffset = firstOffset then none
      else
        match hammerRecoverScanRev fifo scanOffset with
        | .error errno => some (.error errno)
        | .ok (head, offset) =>
          match hammerRecoverUndo media head with
          | .error errno => some (.error errno)
          | .ok media =>
            runUndos fifo firstOffset fuel offset (bytes - head.hdrSize) media
    else if bytes = 0 then some (.ok media)
    else none

/-- Roll the media back over the FIFO range from `firstOffset` up to
`lastOffset`. -/
def hammerRecoverStage1 (fuel : ℕ) (fifo : UndoFifo)
    (firstOffset lastOffset : ℕ) (media : ℕ → UInt8) : Option (Except Errno (ℕ → UInt8)) :=
  let bytes := nominalBytes fifo.allocOffset firstOffset lastOffset
  if bytes > offLongMask fifo.allocOffset then
    some (.error .eio)
  else
    runUndos fifo firstOffset fuel lastOffset bytes media

/-! ## Running the records backwards -/

def undoPatch (head : HammerFifoHead) : Option (Patch UInt8) :=
  match head.any with
  | .undo undo =>
    some ⟨undo.undoOffset, undo.undoData.take undo.undoDataBytes⟩
  | _ => none

def undoPatches (heads : List HammerFifoHead) : List (Patch UInt8) :=
  heads.filterMap undoPatch

theorem undoPatches_append (before after : List HammerFifoHead) :
    undoPatches (before ++ after) = undoPatches before ++ undoPatches after := by
  simp [undoPatches]

/-- Recovery accepts the record and applies the patch it holds. -/
def Runs (head : HammerFifoHead) : Prop :=
  ∀ media, hammerRecoverUndo media head = .ok (rollback (undoPatches [head]) media)

theorem runs_of_not_undo {head : HammerFifoHead} (h : ∀ undo, head.any ≠ .undo undo) :
    Runs head := by
  intro media
  unfold hammerRecoverUndo
  cases hany : head.any with
  | undo undo => exact absurd hany (h undo)
  | pad | dummy | redo redo => simp [undoPatches, undoPatch, hany]

def InBuffer (zoneOff len : ℕ) : Prop :=
  zoneOff / 2 ^ 60 = 1 ∧ zoneOff % 2 ^ 52 + len ≤ hammerBufsize ∨
    zoneOff / 2 ^ 60 = 2 ∧ zoneOff % hammerBufsize + len ≤ hammerBufsize

variable {zoneOff bytes : ℕ} {base : List UInt8}

theorem runs_of_inBuffer (hpos : 0 < n) (hbuffer : InBuffer zoneOff n)
    (hbytes : n + undoOverhead ≤ bytes) : Runs ⟨bytes, seqno, .undo ⟨zoneOff, n, data⟩⟩ := by
  intro media
  have hvalid : ¬(bytes < undoOverhead ∨ n > bytes - undoOverhead) := by
    simp only [undoOverhead] at hbytes ⊢
    omega
  unfold hammerRecoverUndo
  simp only [if_neg hvalid]
  simp only [InBuffer, hammerBufsize] at hbuffer
  rcases hbuffer with ⟨hzone, hend⟩ | ⟨hzone, hend⟩
  · have hoffset : ¬zoneOff % hammerBufsize + n > hammerBufsize := by
      simp only [hammerBufsize]
      omega
    have haddress : hammerEncodeRawVolume (zoneOff / 2 ^ 52 % 256)
          (zoneOff % hammerBufsize) = zoneOff := by
      simp only [hammerEncodeRawVolume, hammerZoneEncode, hammerBufsize]
      omega
    rw [if_neg hoffset, if_pos hzone, haddress]
    rfl
  · have hoffset : ¬zoneOff % hammerBufsize + n > hammerBufsize := by
      simp only [hammerBufsize]
      omega
    have haddress : zoneOff / hammerBufsize * hammerBufsize +
          zoneOff % hammerBufsize = zoneOff := by
      simp only [hammerBufsize]
      omega
    have hzone' : zoneOff / 2 ^ 60 ≠ 1 := by omega
    rw [if_neg hoffset, if_neg hzone', if_pos hzone, haddress]
    rfl

theorem runUndos_holds {before after : List HammerFifoHead} (media : ℕ → UInt8)
    (hholds : fifo.Holds size position (before ++ after)) (hposition : position < size)
    (hfits : Fits size position (before ++ after)) (hroom : spanSize (before ++ after) < size)
    (hruns : ∀ head ∈ before, Runs head) (hfirst : AtPlace size position firstOffset)
    (hscan : AtPlace size (position + spanSize before) scanOffset) (hfuel : before.length < fuel) :
    runUndos fifo firstOffset fuel scanOffset (spanSize before) media =
      some (.ok (rollback (undoPatches before) media)) := by
  induction before using List.reverseRecOn generalizing
      after fuel scanOffset media with
  | nil =>
    obtain ⟨fuel, rfl⟩ := Nat.exists_eq_add_of_lt hfuel
    simp [runUndos, undoPatches]
  | append_singleton before head ih =>
    obtain ⟨fuel, rfl⟩ : ∃ k, fuel = k + 1 := ⟨fuel - 1, by omega⟩
    have happend : before ++ [head] ++ after = before ++ head :: after := by simp
    rw [happend] at hholds hfits hroom
    obtain ⟨hsize, hend⟩ := fits_mem hfits
    have hroom' := hroom
    simp only [spanSize_append, spanSize_cons, fifoTailSize] at hroom' hsize
    have hend' : scanOffset = fifoOffset size (position + spanSize (before ++ [head])) ∨
        scanOffset = fifoOffset size (position + spanSize before) + head.hdrSize := by
      simp only [AtPlace, spanSize_append, spanSize_cons, spanSize_nil, fifoOffset] at hscan ⊢
      split_ifs at hscan ⊢ <;> omega
    have hne : scanOffset ≠ firstOffset := by
      simp only [AtPlace, spanSize_append, spanSize_cons, spanSize_nil, fifoOffset] at hscan hfirst
      split_ifs at hscan hfirst <;> omega
    have hpos : (spanSize (before ++ [head]) : ℤ) > 0 := by
      simp only [spanSize_append, spanSize_cons, spanSize_nil]
      omega
    have hbytes : (spanSize (before ++ [head]) : ℤ) - head.hdrSize = spanSize before := by
      simp
    have hrev := hholds.scanRev hposition hfits hroom.le hend'
    have hhead : Runs head := hruns head (by simp)
    have hrest := ih (rollback (undoPatches [head]) media) hholds hfits
      hroom (fun head' hmem => hruns head' (by simp [hmem]))
      (Or.inl rfl) (by simp at hfuel; omega)
    simp only [runUndos, if_pos hpos, if_neg hne, hrev, hhead media,
      hbytes, hrest, undoPatches_append, rollback_append]

/-! ## The records of one request -/

variable {heads : List HammerFifoHead}

section

variable (hpieces : UndoPieces zoneOff base heads)
include hpieces

theorem UndoPieces.covered (hle : zoneOff ≤ address)
    (hlt : address < zoneOff + base.length) : Covered (undoPatches heads) address := by
  induction hpieces with
  | done => simp at hlt; omega
  | pad bytes _ ih =>
    exact ih hle hlt
  | @piece zoneOff heads base n bytes seqno hpos hn hbytes _ ih =>
    by_cases hfirst : address < zoneOff + n
    · refine ⟨⟨zoneOff, (base.take n).take n⟩, ?_, hle, ?_⟩
      · simp [undoPatches, undoPatch]
      · simpa [hn] using hfirst
    · have hrest := ih (by omega) (by simp; omega)
      exact Covered.append_right [_] hrest

theorem UndoPieces.saves
    (hbase : base = readRange memory zoneOff base.length) :
    ∀ patch ∈ undoPatches heads, patch.Saves memory := by
  induction hpieces with
  | done => simp [undoPatches]
  | pad bytes _ ih => exact ih hbase
  | @piece zoneOff heads base n bytes seqno hpos hn hbytes _ ih =>
    obtain ⟨htake, hdrop⟩ := readRange_split memory zoneOff hn
    rw [← hbase] at htake hdrop
    intro patch hpatch
    have hcases : patch = ⟨zoneOff, (base.take n).take n⟩ ∨ patch ∈ undoPatches heads := by
      simpa [undoPatches, undoPatch] using hpatch
    rcases hcases with rfl | hrest
    · simp [Patch.Saves, htake, take_of_length_le]
    · exact ih (by simpa using hdrop) patch hrest

theorem UndoPieces.runs
    (hbuffer : 0 < base.length → InBuffer zoneOff base.length) : ∀ head ∈ heads, Runs head := by
  induction hpieces with
  | done => simp
  | pad bytes _ ih =>
    intro head hhead
    rcases mem_cons.mp hhead with rfl | hrest
    · exact runs_of_not_undo (by simp)
    · exact ih hbuffer head hrest
  | @piece zoneOff heads base n bytes seqno hpos hn hbytes _ ih =>
    have hbuffer' := hbuffer (by omega)
    simp only [InBuffer, hammerBufsize] at hbuffer'
    intro head hhead
    rcases mem_cons.mp hhead with rfl | hrest
    · refine runs_of_inBuffer hpos ?_ hbytes
      simp only [InBuffer, hammerBufsize]
      omega
    · refine ih ?_ head hrest
      intro hleft
      simp only [InBuffer, hammerBufsize, length_drop] at hleft ⊢
      omega

end

/-! ## The undo history -/

variable {undoLruList undoLruList' : List HammerUndo} {offset : ℕ}

theorem enterUndoHistory_ealready
    (h : hammerEnterUndoHistory undoLruList offset bytes = (undoLruList', some errno)) :
    (∃ node ∈ undoLruList, node.offset = offset ∧ bytes ≤ node.bytes) ∧
      ∀ node ∈ undoLruList', node ∈ undoLruList := by
  unfold hammerEnterUndoHistory at h
  cases hfind : undoLruList.find? fun node => node.offset = offset with
  | none => simp [hfind] at h
  | some node =>
    have hmem := mem_of_find?_eq_some hfind
    have hoffset : node.offset = offset := by
      simpa using find?_some hfind
    simp only [hfind] at h
    split_ifs at h with hbytes
    · simp only [Prod.mk.injEq] at h
      refine ⟨⟨node, hmem, hoffset, hbytes⟩, ?_⟩
      intro node' hnode'
      rw [← h.1] at hnode'
      rcases mem_append.mp hnode' with h' | h'
      · exact mem_of_mem_erase h'
      · rw [mem_singleton.mp h']
        exact hmem
    · simp at h

theorem enterUndoHistory_new
    (h : hammerEnterUndoHistory undoLruList offset bytes = (undoLruList', none)) :
    ∀ node ∈ undoLruList', node ∈ undoLruList ∨ node = ⟨offset, bytes⟩ := by
  unfold hammerEnterUndoHistory at h
  intro node' hnode'
  cases hfind : undoLruList.find? fun node => node.offset = offset with
  | some node =>
    have hoffset : node.offset = offset := by
      simpa using find?_some hfind
    simp only [hfind] at h
    split_ifs at h with hbytes
    · simp at h
    · simp only [Prod.mk.injEq, and_true] at h
      rw [← h] at hnode'
      rcases mem_append.mp hnode' with h' | h'
      · exact Or.inl (mem_of_mem_erase h')
      · right
        rw [mem_singleton.mp h', hoffset]
  | none =>
    simp only [hfind, Prod.mk.injEq, and_true] at h
    rw [← h] at hnode'
    rcases mem_append.mp hnode' with h' | h'
    · left
      split_ifs at h'
      · exact h'
      · exact mem_of_mem_tail h'
    · exact Or.inr (mem_singleton.mp h')

/-! ## The rollback invariant -/

/-- Since the media held `start`, the records `heads` have been laid down; they
roll the media back to `start` and cover the undo history.  Before, `used` bytes
of the FIFO were in use and the append offset was `first`. -/
structure UndoMount.Tracks (mount : UndoMount)
    (size position used first : ℕ) (start : ℕ → UInt8)
    (heads : List HammerFifoHead) : Prop where
  size_lt : size < 2 ^ 52
  laid : mount.writer.Laid size position heads
  runs : ∀ head ∈ heads, Runs head
  rollback : rollback (undoPatches heads) mount.media = start
  history : ∀ node ∈ mount.undoLruList, ∀ address,
    node.offset ≤ address → address < node.offset + node.bytes → Covered (undoPatches heads) address
  first_le : undoZoneBase ≤ mount.diskFirstOffset
  first_ge : mount.diskFirstOffset ≤ undoZoneBase + size
  usedBytes : mount.usedBytes = used + spanSize heads
  room : spanSize heads < size
  idle : spanSize heads = 0 → mount.writer.nextOffset = first

namespace UndoMount.Tracks

variable {mount : UndoMount} {size position used first : ℕ}
  {start : ℕ → UInt8} {heads more : List HammerFifoHead}

theorem space (htracks : mount.Tracks size position used first start heads)
    (hok : mount.undoSpaceOk len = true) :
    used + spanSize heads + len + hammerBufsize * 3 ≤ size := by
  have hsize := htracks.size_lt
  have halloc := htracks.laid.holds.allocOffset
  have hmax : mount.hammerUndoMax = size := by
    simp only [hammerUndoMax, halloc, undoZoneBase, hammerZoneEncode]
    omega
  unfold undoSpaceOk hammerUndoUsed at hok
  rw [hmax, htracks.usedBytes] at hok
  by_cases hle : used + spanSize heads ≤ size
  · simp only [if_pos hle, Bool.not_eq_true', decide_eq_false_iff_not] at hok
    push_cast at hok
    omega
  · simp [hle] at hok

variable {mount' : UndoMount} {change : Patch UInt8} {undoLruList : List HammerUndo}

section

variable (htracks : mount.Tracks size position used first start heads)
include htracks

theorem usedBytes_lay (hfirst : mount'.diskFirstOffset = mount.diskFirstOffset)
    (hlaid : mount'.writer.Laid size position (heads ++ more)) (hmore : 0 < spanSize more)
    (hroom : used + spanSize (heads ++ more) < size) :
    mount'.usedBytes = used + spanSize (heads ++ more) := by
  have hsize := htracks.size_lt
  have hold := htracks.usedBytes
  have hplace := htracks.laid.next
  have hplace' := hlaid.next
  have hge := htracks.first_ge
  simp only [UndoMount.usedBytes, hfirst, hlaid.holds.allocOffset,
    htracks.laid.holds.allocOffset, AtPlace, offLongMask, fifoOffset,
    spanSize_append] at *
  simp only [show undoZoneBase = 3 * 2 ^ 60 from rfl] at *
  split_ifs at hold hplace hplace' ⊢ <;> omega

theorem lay_other
    {writer : UndoWriter} (redoSync : Bool) (hlaid : writer.Laid size position (heads ++ more))
    (hmore : 0 < spanSize more) (hroom : used + spanSize (heads ++ more) < size)
    (hother : ∀ head ∈ more, ∀ undo, head.any ≠ .undo undo) :
    Tracks { mount with writer := writer, redoSync := redoSync }
      size position used first start (heads ++ more) := by
  have hpatches : undoPatches (heads ++ more) = undoPatches heads := by
    have hnone : undoPatches more = [] := by
      refine filterMap_eq_nil_iff.mpr ?_
      intro head hhead
      unfold undoPatch
      cases hany : head.any with
      | undo undo => exact absurd hany (hother head hhead undo)
      | pad | dummy | redo redo => rfl
    rw [undoPatches_append, hnone, append_nil]
  refine ⟨htracks.size_lt, hlaid, ?_, ?_, ?_, htracks.first_le,
    htracks.first_ge, htracks.usedBytes_lay rfl hlaid hmore hroom,
    by omega, ?_⟩
  · intro head hhead
    rcases mem_append.mp hhead with h | h
    · exact htracks.runs head h
    · exact runs_of_not_undo (hother head h)
  · rw [hpatches]
    exact htracks.rollback
  · rw [hpatches]
    exact htracks.history
  · rw [spanSize_append]
    omega

theorem syncRedo (hsync : mount.syncRedo = some mount') :
    ∃ more, mount'.Tracks size position used first start (heads ++ more) ∧
      mount'.media = mount.media := by
  unfold UndoMount.syncRedo hammerGenerateRedoSync at hsync
  split_ifs at hsync with hneeded hstart hok
  · have hspace := htracks.space hok
    obtain ⟨writer, more, hlay, hlaid, hpos, hspan, hother⟩ :=
      htracks.laid.layRedos 0 0 .sync mount.redoFifoStart 0
        (by simp only [hammerBufsize, hammerUndoAlign] at hspace ⊢; omega)
    rw [hlay, map_some, some.injEq] at hsync
    subst hsync
    refine ⟨more, htracks.lay_other true hlaid hpos ?_ hother, rfl⟩
    simp only [spanSize_append, redoOverhead, hammerBufsize] at hspan hspace ⊢
    omega
  · rw [some.injEq] at hsync
    subst hsync
    exact ⟨[], by simpa using htracks, rfl⟩
  · rw [some.injEq] at hsync
    subst hsync
    exact ⟨[], by simpa using htracks, rfl⟩

section

variable (hlist : ∀ node ∈ undoLruList, node ∈ mount.undoLruList ∨ node = ⟨change.offset,
    change.data.length⟩)
include hlist

theorem overwrite_covered
    (hcovered : ∀ address, change.Covers address → Covered (undoPatches heads) address) :
    Tracks { mount with
        undoLruList := undoLruList
        media := change.write mount.media }
      size position used first start heads := by
  refine ⟨htracks.size_lt, htracks.laid, htracks.runs, ?_, ?_,
    htracks.first_le, htracks.first_ge, htracks.usedBytes, htracks.room,
    htracks.idle⟩
  · rw [← htracks.rollback]
    refine rollback_congr ?_
    intro address hnot
    exact Patch.write_of_not_covers fun h => hnot (hcovered address h)
  · intro node hnode address hle hlt
    rcases hlist node hnode with hold | rfl
    · exact htracks.history node hold address hle hlt
    · exact hcovered address ⟨hle, hlt⟩

theorem overwrite_saved {writer : UndoWriter} (hlaid : writer.Laid size position (heads ++ more))
    (hmore : 0 < spanSize more) (hroom : used + spanSize (heads ++ more) < size)
    (hruns : ∀ head ∈ more, Runs head)
    (hsaves : ∀ patch ∈ undoPatches more, patch.Saves mount.media)
    (hcovered : ∀ address, change.Covers address → Covered (undoPatches more) address) :
    Tracks { mount with
        writer := writer
        undoLruList := undoLruList
        media := change.write mount.media }
      size position used first start (heads ++ more) := by
  refine ⟨htracks.size_lt, hlaid, ?_, ?_, ?_, htracks.first_le,
    htracks.first_ge, htracks.usedBytes_lay rfl hlaid hmore hroom,
    by omega, ?_⟩
  · intro head hhead
    rcases mem_append.mp hhead with h | h
    · exact htracks.runs head h
    · exact hruns head h
  · rw [undoPatches_append, rollback_append]
    have hrestore : PatchLog.rollback (undoPatches more)
        (change.write mount.media) = mount.media := by
      refine rollback_saved hsaves ?_
      intro address hnot
      exact Patch.write_of_not_covers fun h => hnot (hcovered address h)
    rw [hrestore]
    exact htracks.rollback
  · intro node hnode address hle hlt
    rw [undoPatches_append]
    rcases hlist node hnode with hold | rfl
    · exact (htracks.history node hold address hle hlt).append_left _
    · exact Covered.append_right _ (hcovered address ⟨hle, hlt⟩)
  · rw [spanSize_append]
    omega

end

end

/-- The request is not in the history: its range is saved before it is
overwritten. -/
theorem modify_new (htracks : mount.Tracks size position used first start (heads ++ more))
    (hbuffer : InBuffer change.offset change.data.length)
    (hlist : ∀ node ∈ undoLruList, node ∈ mount.undoLruList ∨
      node = ⟨change.offset, change.data.length⟩)
    (hok : mount.undoSpaceOk change.data.length = true) (hmodify :
      ((mount.writer.layUndos (2 * change.data.length + 2) change.offset
        (readRange mount.media change.offset change.data.length)).map fun writer =>
            { mount with writer := writer, undoLruList := undoLruList }).map
          (fun mount => { mount with media := change.write mount.media }) =
        some mount') :
    ∃ more, mount'.Tracks size position used first start (heads ++ more) := by
  have hlength := length_readRange mount.media change.offset change.data.length
  by_cases hempty : change.data.length = 0
  · have hnone : mount.writer.layUndos (2 * change.data.length + 2) change.offset
        (readRange mount.media change.offset change.data.length) = some mount.writer := by
      simp [UndoWriter.layUndos, hempty]
    rw [hnone, map_some, map_some, some.injEq] at hmodify
    subst hmodify
    refine ⟨more, htracks.overwrite_covered hlist ?_⟩
    intro address hcovers
    have hlt := hcovers.2
    have hle := hcovers.1
    omega
  · have hspace := htracks.space hok
    have hlen : change.data.length ≤ hammerBufsize := by
      simp only [InBuffer, hammerBufsize] at hbuffer ⊢
      omega
    have hbudget : undoBudget mount.writer.nextOffset change.data.length ≤
        19000 := by
      simp only [undoBudget, hammerUndoAlign, hammerBufsize] at hlen ⊢
      omega
    have hfuel : 2 * (readRange mount.media change.offset change.data.length).length +
        (if mount.writer.nextOffset % 512 = 0 then 0 else 1) <
          2 * change.data.length + 2 := by
      rw [hlength]
      split_ifs <;> omega
    have hroom : spanSize (heads ++ more) + undoBudget mount.writer.nextOffset
          (readRange mount.media change.offset change.data.length).length +
        hammerBufsize + hammerUndoAlign ≤ size := by
      rw [hlength]
      simp only [hammerBufsize, hammerUndoAlign] at hspace ⊢
      omega
    obtain ⟨writer, laid, hlay, hlaid, hspan, hpieces⟩ := htracks.laid.layUndos hroom hfuel
    rw [hlay, map_some, map_some, some.injEq] at hmodify
    subst hmodify
    rw [hlength] at hspan
    have hpos := hpieces.length_le_span
    rw [hlength] at hpos
    refine ⟨more ++ laid, ?_⟩
    rw [← append_assoc]
    refine htracks.overwrite_saved hlist hlaid (by omega) ?_
      (hpieces.runs fun _ => by rw [hlength]; exact hbuffer)
      (hpieces.saves (by rw [hlength])) ?_
    · rw [spanSize_append _ laid]
      simp only [hammerBufsize] at hspace
      omega
    · intro address hcovers
      exact hpieces.covered hcovers.1 (by rw [hlength]; exact hcovers.2)

theorem modify (htracks : mount.Tracks size position used first start heads)
    (hbuffer : InBuffer change.offset change.data.length)
    (hmodify : mount.modify change = some mount') :
    ∃ more, mount'.Tracks size position used first start (heads ++ more) := by
  unfold UndoMount.modify hammerGenerateUndo at hmodify
  cases hsync : mount.syncRedo with
  | none => simp [hsync] at hmodify
  | some synced =>
    obtain ⟨before, hsynced, hmedia⟩ := htracks.syncRedo hsync
    simp only [hsync, length_readRange] at hmodify
    rw [← hmedia] at hmodify
    cases henter : hammerEnterUndoHistory synced.undoLruList
        change.offset change.data.length with
    | mk undoLruList errno =>
      simp only [henter] at hmodify
      cases errno with
      | some errno =>
        obtain ⟨⟨node, hnode, hoffset, hbytes⟩, hlist⟩ := enterUndoHistory_ealready henter
        simp only [map_some, some.injEq] at hmodify
        subst hmodify
        refine ⟨before, hsynced.overwrite_covered (fun node hnode => Or.inl (hlist node hnode)) ?_⟩
        intro address hcovers
        obtain ⟨hle, hlt⟩ := hcovers
        exact hsynced.history node hnode address (by omega)
          (by omega)
      | none =>
        have hlist := enterUndoHistory_new henter
        split_ifs at hmodify with hok
        · exact hsynced.modify_new hbuffer hlist hok hmodify
        · simp at hmodify

theorem modifyAll (htracks : mount.Tracks size position used first start heads)
    (hbuffer : ∀ change ∈ changes, InBuffer change.offset change.data.length)
    (hrun : mount.modifyAll changes = some mount') :
    ∃ more, mount'.Tracks size position used first start (heads ++ more) := by
  induction changes generalizing mount heads with
  | nil =>
    simp only [UndoMount.modifyAll, some.injEq] at hrun
    subst hrun
    exact ⟨[], by simpa using htracks⟩
  | cons change changes ih =>
    unfold UndoMount.modifyAll at hrun
    cases hmodify : mount.modify change with
    | none => simp [hmodify] at hrun
    | some next =>
      simp only [hmodify] at hrun
      obtain ⟨more, hnext⟩ := htracks.modify (hbuffer change mem_cons_self) hmodify
      obtain ⟨rest, hrest⟩ := ih hnext (fun change' h => hbuffer change' (mem_cons_of_mem _ h))
        hrun
      exact ⟨more ++ rest, by simpa using hrest⟩

end UndoMount.Tracks

/-- A mount whose undo history has just been cleared.  The FIFO is made of
whole buffers and the append offset is one. -/
structure UndoMount.Ready (mount : UndoMount) (size : ℕ) : Prop where
  size_pos : 0 < size
  size_lt : size < 2 ^ 52
  size_mod : size % hammerBufsize = 0
  allocOffset : mount.writer.fifo.allocOffset = undoZoneBase + size
  next_le : undoZoneBase ≤ mount.writer.nextOffset
  next_ge : mount.writer.nextOffset ≤ undoZoneBase + size
  next_mod : mount.writer.nextOffset % 8 = 0
  first_le : undoZoneBase ≤ mount.diskFirstOffset
  first_ge : mount.diskFirstOffset ≤ undoZoneBase + size
  history : mount.undoLruList = []

namespace UndoMount.Ready

variable {mount : UndoMount} {size : ℕ}

theorem tracks (hready : mount.Ready size) :
    ∃ position, position < size ∧ AtPlace size position mount.writer.nextOffset ∧
      mount.Tracks size position mount.usedBytes mount.writer.nextOffset mount.media [] := by
  have hle := hready.next_le
  have hge := hready.next_ge
  have hpos := hready.size_pos
  obtain ⟨position, hlt, hplace⟩ : ∃ position, position < size ∧
      AtPlace size position mount.writer.nextOffset := by
    by_cases hend : mount.writer.nextOffset = undoZoneBase + size
    · refine ⟨0, hpos, Or.inr ⟨?_, hend⟩⟩
      simp [fifoOffset, hpos]
    · have hlt : mount.writer.nextOffset - undoZoneBase < size := by
        omega
      refine ⟨mount.writer.nextOffset - undoZoneBase, hlt, Or.inl ?_⟩
      rw [fifoOffset, if_pos hlt]
      omega
  have hlaid : mount.writer.Laid size position [] :=
    ⟨hready.size_mod, hlt, ⟨hready.allocOffset, by simp [layout], by simp [layout]⟩,
      trivial, by simp, by simpa using hplace, hready.next_mod⟩
  refine ⟨position, hlt, hplace, hready.size_lt, hlaid, by simp, rfl, ?_,
    hready.first_le, hready.first_ge, by simp, by simpa using hpos,
    fun _ => rfl⟩
  simp [hready.history]

/-- Running the UNDO records laid down by any modifications in reverse restores
every byte of the media. -/
theorem recoverStage1_restores
    (hready : mount.Ready size) {changes : List (Patch UInt8)} {mount' : UndoMount}
    (hbuffer : ∀ change ∈ changes, InBuffer change.offset change.data.length)
    (hrun : mount.modifyAll changes = some mount') :
    ∃ enough, ∀ fuel > enough, hammerRecoverStage1 fuel mount'.writer.fifo mount.writer.nextOffset
          mount'.writer.nextOffset mount'.media = some (.ok mount.media) := by
  obtain ⟨position, hlt, hfirst, htracks⟩ := hready.tracks
  obtain ⟨heads, htracks'⟩ := htracks.modifyAll hbuffer hrun
  rw [nil_append] at htracks'
  have hsize := hready.size_lt
  have hlast := htracks'.laid.next
  have hroom := htracks'.room
  have halloc := htracks'.laid.holds.allocOffset
  have hidle := htracks'.idle
  refine ⟨heads.length, ?_⟩
  intro fuel hfuel
  have hbytes : nominalBytes mount'.writer.fifo.allocOffset mount.writer.nextOffset
          mount'.writer.nextOffset = spanSize heads := by
    simp only [nominalBytes, halloc, offLongMask, AtPlace, fifoOffset] at hfirst hlast ⊢
    simp only [show undoZoneBase = 3 * 2 ^ 60 from rfl] at *
    split_ifs at hfirst hlast ⊢ <;> omega
  have hsane : ¬(spanSize heads : ℤ) > offLongMask mount'.writer.fifo.allocOffset := by
    simp only [halloc, offLongMask, undoZoneBase, hammerZoneEncode]
    omega
  have hholds : mount'.writer.fifo.Holds size position (heads ++ []) := by
    simpa using htracks'.laid.holds
  have hundo := runUndos_holds mount'.media hholds hlt
    (by simpa using htracks'.laid.fits) (by simpa using hroom)
    htracks'.runs hfirst hlast hfuel
  unfold hammerRecoverStage1
  simp only [hbytes, if_neg hsane, hundo, htracks'.rollback]

def emptyMount : UndoMount where
  version := 4
  writer := ⟨⟨undoZoneBase + 65536, []⟩, undoZoneBase + 65536, 0⟩
  diskFirstOffset := undoZoneBase + 65536
  undoLruList := []
  redoSync := false
  redoFifoStart := undoZoneBase
  media := fun address => UInt8.ofNat address

/-- A buffer range, the same range again but shorter, and a volume header. -/
def someChanges : List (Patch UInt8) :=
  [⟨hammerZoneEncode 2 100, [1, 2, 3]⟩, ⟨hammerZoneEncode 2 100, [4, 5]⟩,
    ⟨hammerEncodeRawVolume 1 8, [6]⟩]

theorem emptyMount_restored :
    ∃ mount', emptyMount.modifyAll someChanges = some mount' ∧ ∃ enough, ∀ fuel > enough,
        hammerRecoverStage1 fuel mount'.writer.fifo
            emptyMount.writer.nextOffset mount'.writer.nextOffset mount'.media =
          some (.ok emptyMount.media) := by
  have hsome : (emptyMount.modifyAll someChanges).isSome = true := by
    decide
  obtain ⟨mount', hrun⟩ := isSome_iff_exists.mp hsome
  have hready : emptyMount.Ready 65536 :=
    ⟨by decide, by decide, by decide, rfl, by decide, by decide,
      by decide, by decide, by decide, rfl⟩
  have hbuffer : ∀ change ∈ someChanges, InBuffer change.offset change.data.length := by
    unfold InBuffer
    decide
  exact ⟨mount', hrun, recoverStage1_restores hready hbuffer hrun⟩

end UndoMount.Ready

end DragonFly.Hammer
