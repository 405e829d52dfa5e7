import DragonFly.EventSystem
import DragonFly.HammerUndoHistory

/-!
# How far back a REDO_SYNC reaches

An inode with REDO records remembers the offset of the earliest one, and the inodes are
kept in a tree ordered by that offset.  `hammer_generate_redo_sync` records the offset of
the first inode of the tree.  Offsets are compared as numbers, but the FIFO is circular:
once the append offset has wrapped, an inode from before the wrap has the larger offset.
-/

namespace DragonFly.Hammer

open Function Option

/-- The REDO fields of an inode; `bufs` is `HAMMER_INODE_BUFS`. -/
structure RedoInode where
  objId : ℤ
  objLocalization : ℕ
  redoFifoStart : ℕ
  redoFifoNext : ℕ
  rdirty : Bool
  bufs : Bool
  deriving DecidableEq

/-- A mount with its inodes.  The tree is the list of the inodes in it, and the field
`redoFifoStart` of the UNDO part is what the tree gives. -/
structure RedoMount (I : Type) where
  undo : UndoMount
  inode : I → RedoInode
  rbRedoRoot : List I
  redoRecoveryRun : Bool
  recoverStage2Offset : ℕ

namespace RedoMount

variable {I : Type}

/-- The offset in `hammer_generate_redo_sync`; zero if there is nothing to record. -/
def syncOffset (s : RedoMount I) : ℕ :=
  if s.redoRecoveryRun then s.recoverStage2Offset
  else
    match s.rbRedoRoot.argmin fun i => (s.inode i).redoFifoStart with
    | some i => (s.inode i).redoFifoStart
    | none => 0

def withUndo (s : RedoMount I) (undo : UndoMount) : RedoMount I :=
  { s with undo := undo }

def withWriter (s : RedoMount I) (writer : UndoWriter) : RedoMount I :=
  s.withUndo { s.undo with writer := writer }

def hammerGenerateRedoSync (s : RedoMount I) : Option (RedoMount I) :=
  { s.undo with redoFifoStart := s.syncOffset }.hammerGenerateRedoSync.map s.withUndo

def hammerGenerateUndo (s : RedoMount I) (zoneOff : ℕ) (base : List UInt8) : Option (RedoMount I) :=
  ({ s.undo with redoFifoStart := s.syncOffset }.hammerGenerateUndo zoneOff base).map s.withUndo

variable [DecidableEq I]

section

variable (s : RedoMount I)

def setInode (i : I) (ip : RedoInode) : RedoMount I :=
  { s with inode := update s.inode i ip }

/-- `RB_INSERT`; `none` is the panic on an offset that is in the tree already. -/
def rbInsert (i : I) : Option (RedoMount I) :=
  if ∃ j ∈ s.rbRedoRoot, (s.inode j).redoFifoStart = (s.inode i).redoFifoStart then none
  else some { s with rbRedoRoot := i :: s.rbRedoRoot }

def track (i : I) (nextOffset : ℕ) : Option (RedoMount I) :=
  let dirty :=
    if (s.inode i).rdirty then some s
    else
      (s.setInode i
        { s.inode i with redoFifoStart := nextOffset, rdirty := true }).rbInsert i
  dirty.map fun s =>
    if (s.inode i).redoFifoNext = 0 then
      s.setInode i { s.inode i with redoFifoNext := nextOffset }
    else s

/-- The loop of `hammer_generate_redo`, with the tracking of its inode. -/
def layRedos (ip : Option I) (flags : RedoFlags) :
    ℕ → RedoMount I → ℕ → Option (List UInt8) → ℕ → Option (RedoMount I)
  | 0, _, _, _, _ => none
  | fuel + 1, s, fileOff, base, len =>
    let writer := s.undo.writer.enter
    let bytes := writer.sectorBytes
    if bytes ≤ redoOverhead then
      writer.layPad.bind fun writer => layRedos ip flags fuel (s.withWriter writer) fileOff base len
    else
      let objid := (ip.map fun i => (s.inode i).objId).getD 0
      let localization := (ip.map fun i => (s.inode i).objLocalization).getD 0
      (ip.elim (some s) fun i => s.track i writer.nextOffset).bind fun s =>
        match base with
        | none =>
          (writer.layRecord redoOverhead
            (.redo ⟨objid, fileOff, len, flags, localization, []⟩)).map s.withWriter
        | some data =>
          let n := min (bytes - redoOverhead) len
          (writer.layRecord (headAlign n + redoOverhead)
            (.redo ⟨objid, fileOff, n, flags, localization, data.take n⟩)).bind fun writer =>
              if len - n = 0 then some (s.withWriter writer)
              else
                layRedos ip flags fuel (s.withWriter writer) (fileOff + n)
                  (some (data.drop n)) (len - n)

/-- Every second iteration at least lays a record. -/
def hammerGenerateRedo (ip : Option I) (fileOff : ℕ) (flags : RedoFlags)
    (base : Option (List UInt8)) (len : ℕ) : Option (RedoMount I) :=
  if s.undo.undoSpaceOk len then
    (layRedos ip flags (2 * len + 2) s fileOff base len).bind fun s =>
      if !s.undo.redoSync && flags != .sync then s.hammerGenerateRedoSync else some s
  else none

def hammerRedoFifoStartFlush (i : I) : RedoMount I :=
  s.setInode i { s.inode i with redoFifoNext := 0 }

def rbRemove (i : I) : RedoMount I :=
  if (s.inode i).rdirty then
    { s.setInode i { s.inode i with rdirty := false } with
      rbRedoRoot := s.rbRedoRoot.filter (· ≠ i) }
  else s

def hammerRedoFifoEndFlush (i : I) : Option (RedoMount I) :=
  let s := s.rbRemove i
  let next := if (s.inode i).bufs then (s.inode i).redoFifoNext else 0
  if next = 0 then some (s.setInode i { s.inode i with redoFifoNext := 0 })
  else
    (s.setInode i
      { s.inode i with redoFifoNext := next, redoFifoStart := next, rdirty := true }).rbInsert i

/-- What the users of the FIFO do.  `bufs` is the frontend, `unload` the end of an inode,
and `flushed` the end of a flush cycle. -/
inductive Event (I : Type) where
  | undo (zoneOff : ℕ) (base : List UInt8)
  | redo (ip : Option I) (fileOff : ℕ) (flags : RedoFlags) (base : Option (List UInt8)) (len : ℕ)
  | sync
  | startFlush (i : I)
  | endFlush (i : I)
  | bufs (i : I) (bufs : Bool)
  | unload (i : I)
  | flushed (firstOffset : ℕ)

def next : Event I → Option (RedoMount I)
  | .undo zoneOff base => s.hammerGenerateUndo zoneOff base
  | .redo ip fileOff flags base len => s.hammerGenerateRedo ip fileOff flags base len
  | .sync => s.hammerGenerateRedoSync
  | .startFlush i => some (s.hammerRedoFifoStartFlush i)
  | .endFlush i => s.hammerRedoFifoEndFlush i
  | .bufs i bufs => some (s.setInode i { s.inode i with bufs := bufs })
  | .unload i => some (s.rbRemove i)
  | .flushed first =>
    some (s.withUndo { s.undo with diskFirstOffset := first, redoSync := false, undoLruList := [] })

/-- How many bytes ago the record at an offset was laid down. -/
def age (offset : ℕ) : ℕ :=
  let nextOffset := s.undo.writer.nextOffset
  if offset < nextOffset then nextOffset - offset
  else nextOffset + (s.undo.writer.fifo.allocOffset - undoZoneBase) - offset

/-- The recorded offset is at least as old as the earliest REDO of every inode. -/
def SyncReaches : Prop :=
  ∀ i, (s.inode i).rdirty = true → s.age (s.inode i).redoFifoStart ≤ s.age s.syncOffset

/-- Inodes have REDO records from before and from after the last wrap of the FIFO. -/
def Straddles : Prop :=
  ∃ i j, (s.inode i).rdirty = true ∧ (s.inode j).rdirty = true ∧
    (s.inode i).redoFifoStart < s.undo.writer.nextOffset ∧
    s.undo.writer.nextOffset ≤ (s.inode j).redoFifoStart

end

end RedoMount

/-! ## The append offset stays in the zone -/

variable {fileOff : ℕ} {flags : RedoFlags} {base : Option (List UInt8)}

namespace UndoWriter

structure InZone (alloc : ℕ) (writer : UndoWriter) : Prop where
  allocOffset : writer.fifo.allocOffset = alloc
  room : undoZoneBase < alloc
  sectors : 512 ∣ alloc
  base : undoZoneBase ≤ writer.nextOffset
  bound : writer.nextOffset ≤ alloc
  aligned : 8 ∣ writer.nextOffset

variable {alloc fuel len zoneOff : ℕ} {writer writer' : UndoWriter}

section

variable (h : writer.InZone alloc)
include h

theorem InZone.enter : writer.enter.InZone alloc ∧ writer.enter.nextOffset < alloc := by
  have hfifo : writer.enter.fifo.allocOffset = alloc := by
    rw [← h.allocOffset]
    simp only [UndoWriter.enter, format]
    split_ifs <;> rfl
  have hnext : writer.enter.nextOffset = writer.wrap.nextOffset := by
    simp only [UndoWriter.enter, format]
    split_ifs <;> rfl
  have hzone : (8 : ℕ) ∣ undoZoneBase := by decide
  have hroom := h.room
  have hbound := h.bound
  simp only [wrap, h.allocOffset] at hnext
  split_ifs at hnext with hend
  · rw [← hnext] at hroom hzone
    exact ⟨⟨hfifo, h.room, h.sectors, hnext.ge, hroom.le, hzone⟩, hroom⟩
  · rw [← hnext] at hend hbound
    exact ⟨⟨hfifo, h.room, h.sectors, hnext ▸ h.base, hbound, hnext ▸ h.aligned⟩,
      lt_of_le_of_ne hbound hend⟩

theorem InZone.advance (hlt : writer.nextOffset < alloc) (hbytes : bytes ≤ writer.sectorBytes)
    (haligned : 8 ∣ bytes) (hfifo : writer'.fifo.allocOffset = writer.fifo.allocOffset)
    (hnext : writer'.nextOffset = writer.nextOffset + bytes) : writer'.InZone alloc := by
  have hsectors := h.sectors
  have hbase := h.base
  unfold sectorBytes hammerUndoAlign at hbytes
  refine ⟨hfifo.trans h.allocOffset, h.room, h.sectors, ?_, ?_, ?_⟩
  · omega
  · omega
  · rw [hnext]
    exact Nat.dvd_add h.aligned haligned

theorem InZone.sectorBytes_aligned : 8 ∣ writer.sectorBytes := by
  have haligned := h.aligned
  unfold sectorBytes hammerUndoAlign
  omega

theorem InZone.layPad (hlt : writer.nextOffset < alloc)
    (hpad : writer.layPad = some writer') :
    writer'.InZone alloc := by
  simp only [UndoWriter.layPad] at hpad
  split_ifs at hpad
  cases hpad
  exact h.advance hlt le_rfl h.sectorBytes_aligned rfl rfl

theorem InZone.layRecord (hlt : writer.nextOffset < alloc) (hbytes : bytes ≤ writer.sectorBytes)
    (haligned : 8 ∣ bytes) (hlay : writer.layRecord bytes any = some writer') :
    writer'.InZone alloc := by
  simp only [UndoWriter.layRecord] at hlay
  split_ifs at hlay
  · cases hlay
    exact h.advance hlt hbytes haligned rfl rfl
  · cases hlay
    exact h.advance hlt hbytes haligned rfl rfl

end

theorem headAlign_add_le (haligned : 8 ∣ bytes) (hoverhead : 8 ∣ overhead)
    (hn : n + overhead ≤ bytes) : headAlign n + overhead ≤ bytes ∧ 8 ∣ headAlign n + overhead := by
  unfold headAlign
  omega

theorem InZone.layUndos (h : writer.InZone alloc) {base : List UInt8}
    (hlay : UndoWriter.layUndos fuel writer zoneOff base = some writer') :
    writer'.InZone alloc := by
  induction fuel generalizing writer zoneOff base with
  | zero => cases hlay
  | succ fuel ih =>
    obtain ⟨hzone, hlt⟩ := h.enter
    have hsector := hzone.sectorBytes_aligned
    have hoverhead : (8 : ℕ) ∣ undoOverhead := by decide
    simp only [UndoWriter.layUndos] at hlay
    split_ifs at hlay
    · cases hlay
      exact h
    · split at hlay
      · cases hlay
      · next w n hone =>
          apply ih _ hlay
          simp only [layUndo] at hone
          split_ifs at hone with hpad hmore
          · obtain ⟨v, hv, heq⟩ := map_eq_some_iff.mp hone
            cases heq
            exact hzone.layPad hlt hv
          · obtain ⟨v, hv, heq⟩ := map_eq_some_iff.mp hone
            cases heq
            obtain ⟨hle, hdvd⟩ := headAlign_add_le (n := base.length) hsector hoverhead (by omega)
            exact hzone.layRecord hlt hle hdvd hv
          · obtain ⟨v, hv, heq⟩ := map_eq_some_iff.mp hone
            cases heq
            exact hzone.layRecord hlt le_rfl hsector hv

theorem InZone.layRedo (h : writer.InZone alloc) (hlt : writer.nextOffset < alloc)
    (hroom : ¬writer.sectorBytes ≤ redoOverhead)
    (hlay : writer.layRecord (headAlign (min (writer.sectorBytes - redoOverhead) len) +
      redoOverhead) any = some writer') :
    writer'.InZone alloc := by
  have hoverhead : (8 : ℕ) ∣ redoOverhead := by decide
  obtain ⟨hle, hdvd⟩ := headAlign_add_le (n := min (writer.sectorBytes - redoOverhead) len)
    h.sectorBytes_aligned hoverhead (by omega)
  exact h.layRecord hlt hle hdvd hlay

theorem InZone.layRedos (h : writer.InZone alloc)
    (hlay : UndoWriter.layRedos objid localization flags fuel writer fileOff base len =
      some writer') : writer'.InZone alloc := by
  induction fuel generalizing writer fileOff base len with
  | zero => cases hlay
  | succ fuel ih =>
    obtain ⟨hzone, hlt⟩ := h.enter
    rw [UndoWriter.layRedos.eq_def] at hlay
    by_cases hroom : writer.enter.sectorBytes ≤ redoOverhead
    · simp only [if_pos hroom] at hlay
      split at hlay
      · cases hlay
      · next w hpad => exact ih (hzone.layPad hlt hpad) hlay
    · simp only [if_neg hroom] at hlay
      cases base with
      | none => exact hzone.layRecord hlt (not_le.mp hroom).le (by decide) hlay
      | some data =>
        simp only at hlay
        split at hlay
        · cases hlay
        · next w hrecord =>
            have hw := hzone.layRedo hlt hroom hrecord
            split_ifs at hlay
            · cases hlay
              exact hw
            · exact ih hw hlay

end UndoWriter

namespace UndoMount

variable {alloc zoneOff : ℕ} {mount mount' : UndoMount} {base : List UInt8}

theorem inZone_redoSync
    (h : mount.writer.InZone alloc) (hsync : mount.hammerGenerateRedoSync = some mount') :
    mount'.writer.InZone alloc := by
  simp only [hammerGenerateRedoSync] at hsync
  split_ifs at hsync
  · obtain ⟨writer, hlay, heq⟩ := map_eq_some_iff.mp hsync
    cases heq
    exact h.layRedos hlay
  · cases hsync
    exact h

theorem inZone_undo
    (h : mount.writer.InZone alloc) (hundo : mount.hammerGenerateUndo zoneOff base = some mount') :
    mount'.writer.InZone alloc := by
  simp only [hammerGenerateUndo] at hundo
  split at hundo
  · cases hundo
  · next synced hsync =>
      have hsynced : synced.writer.InZone alloc := by
        simp only [syncRedo] at hsync
        split_ifs at hsync
        · exact inZone_redoSync h hsync
        · cases hsync
          exact h
      split at hundo
      · cases hundo
        exact hsynced
      · split_ifs at hundo
        obtain ⟨writer, hlay, heq⟩ := map_eq_some_iff.mp hundo
        cases heq
        exact hsynced.layUndos hlay

end UndoMount

/-! ## The tree holds the dirty inodes -/

namespace RedoMount

variable {I : Type}

structure Tracked (alloc : ℕ) (s : RedoMount I) : Prop where
  running : s.redoRecoveryRun = false
  zone : s.undo.writer.InZone alloc
  tree : ∀ i, i ∈ s.rbRedoRoot ↔ (s.inode i).rdirty = true
  start : ∀ i, (s.inode i).rdirty = true →
    undoZoneBase ≤ (s.inode i).redoFifoStart ∧ (s.inode i).redoFifoStart < alloc
  next : ∀ i, (s.inode i).redoFifoNext ≠ 0 →
    undoZoneBase ≤ (s.inode i).redoFifoNext ∧ (s.inode i).redoFifoNext < alloc

structure Mounted (s : RedoMount I) : Prop where
  running : s.redoRecoveryRun = false
  zone : s.undo.writer.InZone s.undo.writer.fifo.allocOffset
  tree : s.rbRedoRoot = []
  clean : ∀ i, (s.inode i).rdirty = false
  next : ∀ i, (s.inode i).redoFifoNext = 0

theorem Mounted.tracked {s : RedoMount I} (h : s.Mounted) :
    s.Tracked s.undo.writer.fifo.allocOffset := by
  refine ⟨h.running, h.zone, ?_, ?_, ?_⟩
  · intro i
    simp [h.tree, h.clean]
  · intro i hdirty
    rw [h.clean i] at hdirty
    cases hdirty
  · intro i hne
    exact absurd (h.next i) hne

variable {alloc offset : ℕ} {s s' : RedoMount I} {i : I} {ip : RedoInode}

theorem Tracked.withUndo
    {undo : UndoMount} (h : s.Tracked alloc) (hzone : undo.writer.InZone alloc) :
    (s.withUndo undo).Tracked alloc :=
  ⟨h.running, hzone, h.tree, h.start, h.next⟩

theorem Tracked.redoSync
    (h : s.Tracked alloc) (hsync : s.hammerGenerateRedoSync = some s') : s'.Tracked alloc := by
  obtain ⟨undo, hundo, rfl⟩ := map_eq_some_iff.mp hsync
  apply h.withUndo
  apply UndoMount.inZone_redoSync _ hundo
  exact h.zone

theorem Tracked.age_lt (h : s.Tracked alloc) (hlow : undoZoneBase ≤ low) (hhigh : high < alloc)
    (hbefore : low < s.undo.writer.nextOffset) (hafter : s.undo.writer.nextOffset ≤ high) :
    s.age low < s.age high := by
  simp only [age, if_pos hbefore, if_neg (not_lt.mpr hafter), h.zone.allocOffset]
  omega

theorem age_le_of_le (hle : low ≤ high)
    (hside : low < s.undo.writer.nextOffset → high < s.undo.writer.nextOffset) :
    s.age high ≤ s.age low := by
  by_cases hlow : low < s.undo.writer.nextOffset
  · simp only [age, if_pos hlow, if_pos (hside hlow)]
    omega
  · have hhigh : ¬high < s.undo.writer.nextOffset := by omega
    simp only [age, if_neg hlow, if_neg hhigh]
    omega

theorem Tracked.syncOffset_spec (h : s.Tracked alloc) (hdirty : (s.inode i).rdirty = true) :
    (∃ j, (s.inode j).rdirty = true ∧ s.syncOffset = (s.inode j).redoFifoStart) ∧
      s.syncOffset ≤ (s.inode i).redoFifoStart := by
  have hmem := (h.tree i).mpr hdirty
  have hne : s.rbRedoRoot.argmin (fun i => (s.inode i).redoFifoStart) ≠ none := by
    rw [Ne, List.argmin_eq_none]
    exact List.ne_nil_of_mem hmem
  obtain ⟨j, hj⟩ := ne_none_iff_exists'.mp hne
  have hoffset : s.syncOffset = (s.inode j).redoFifoStart := by
    simp [syncOffset, h.running, hj]
  refine ⟨⟨j, (h.tree j).mp (List.argmin_mem hj), hoffset⟩, ?_⟩
  rw [hoffset]
  exact List.le_of_mem_argmin (f := fun i => (s.inode i).redoFifoStart) hmem hj

variable [DecidableEq I]

section

variable (h : s.Tracked alloc)
include h

theorem Tracked.setInode
    (tree : List I) (htree : ∀ j, j ∈ tree ↔ if j = i then ip.rdirty = true else j ∈ s.rbRedoRoot)
    (hstart : ip.rdirty = true → undoZoneBase ≤ ip.redoFifoStart ∧ ip.redoFifoStart < alloc)
    (hnext : ip.redoFifoNext ≠ 0 → undoZoneBase ≤ ip.redoFifoNext ∧ ip.redoFifoNext < alloc) :
    Tracked alloc { s.setInode i ip with rbRedoRoot := tree } := by
  refine ⟨h.running, h.zone, ?_, ?_, ?_⟩
  · intro j
    rw [htree]
    by_cases hj : j = i
    · subst hj
      simp [RedoMount.setInode]
    · simp [RedoMount.setInode, hj, h.tree]
  · intro j hdirty
    by_cases hj : j = i
    · subst hj
      simp only [RedoMount.setInode, update_self] at hdirty ⊢
      exact hstart hdirty
    · simp only [RedoMount.setInode, update_of_ne hj] at hdirty ⊢
      exact h.start j hdirty
  · intro j hne
    by_cases hj : j = i
    · subst hj
      simp only [RedoMount.setInode, update_self] at hne ⊢
      exact hnext hne
    · simp only [RedoMount.setInode, update_of_ne hj] at hne ⊢
      exact h.next j hne

theorem Tracked.keep (hdirty : ip.rdirty = (s.inode i).rdirty)
    (hstart : ip.redoFifoStart = (s.inode i).redoFifoStart)
    (hnext : ip.redoFifoNext ≠ 0 → undoZoneBase ≤ ip.redoFifoNext ∧ ip.redoFifoNext < alloc) :
    (s.setInode i ip).Tracked alloc := by
  apply h.setInode s.rbRedoRoot
  · intro j
    split_ifs with hj
    · rw [hj, hdirty, h.tree]
    · exact Iff.rfl
  · rw [hdirty, hstart]
    exact h.start i
  · exact hnext

theorem Tracked.insert (hdirty : ip.rdirty = true)
    (hstart : undoZoneBase ≤ ip.redoFifoStart ∧ ip.redoFifoStart < alloc)
    (hnext : ip.redoFifoNext ≠ 0 → undoZoneBase ≤ ip.redoFifoNext ∧ ip.redoFifoNext < alloc)
    (hinsert : (s.setInode i ip).rbInsert i = some s') : s'.Tracked alloc := by
  simp only [rbInsert] at hinsert
  split_ifs at hinsert
  cases hinsert
  apply h.setInode
  · intro j
    by_cases hj : j = i
    · simp [hj, hdirty]
    · simp [hj, RedoMount.setInode]
  · exact fun _ => hstart
  · exact hnext

theorem Tracked.remove (i : I) :
    (s.rbRemove i).Tracked alloc ∧ ((s.rbRemove i).inode i).rdirty = false ∧
      ((s.rbRemove i).inode i).redoFifoNext = (s.inode i).redoFifoNext := by
  simp only [rbRemove]
  split_ifs with hdirty
  · refine ⟨?_, by simp [RedoMount.setInode], by simp [RedoMount.setInode]⟩
    apply h.setInode
    · intro j
      by_cases hj : j = i
      · simp [hj]
      · simp [hj]
    · exact nofun
    · exact h.next i
  · exact ⟨h, Bool.eq_false_iff.mpr hdirty, rfl⟩

theorem Tracked.track (hoffset : undoZoneBase ≤ offset ∧ offset < alloc)
    (htrack : s.track i offset = some s') : s'.Tracked alloc := by
  simp only [RedoMount.track, map_eq_some_iff] at htrack
  obtain ⟨mid, hmid, rfl⟩ := htrack
  have hdirty : mid.Tracked alloc := by
    split_ifs at hmid
    · cases hmid
      exact h
    · refine h.insert rfl hoffset ?_ hmid
      exact h.next i
  split_ifs
  · exact hdirty.keep rfl rfl fun _ => hoffset
  · exact hdirty

theorem Tracked.layRedos {ip : Option I}
    (hlay : RedoMount.layRedos ip flags fuel s fileOff base len = some s') : s'.Tracked alloc := by
  induction fuel generalizing s fileOff base len with
  | zero => cases hlay
  | succ fuel ih =>
    obtain ⟨hzone, hlt⟩ := h.zone.enter
    rw [RedoMount.layRedos] at hlay
    by_cases hroom : s.undo.writer.enter.sectorBytes ≤ redoOverhead
    · simp only [if_pos hroom] at hlay
      obtain ⟨w, hpad, hrest⟩ := bind_eq_some_iff.mp hlay
      apply ih _ hrest
      apply h.withUndo
      exact hzone.layPad hlt hpad
    · simp only [if_neg hroom] at hlay
      obtain ⟨mid, hmid, hrest⟩ := bind_eq_some_iff.mp hlay
      have hmid' : mid.Tracked alloc := by
        cases ip with
        | none =>
          cases hmid
          exact h
        | some i => exact h.track ⟨hzone.base, hlt⟩ hmid
      cases base with
      | none =>
        obtain ⟨w, hrecord, rfl⟩ := map_eq_some_iff.mp hrest
        apply hmid'.withUndo
        exact hzone.layRecord hlt (not_le.mp hroom).le (by decide) hrecord
      | some data =>
        obtain ⟨w, hrecord, hend⟩ := bind_eq_some_iff.mp hrest
        have hw : (mid.withWriter w).Tracked alloc := by
          apply hmid'.withUndo
          exact hzone.layRedo hlt hroom hrecord
        split_ifs at hend
        · cases hend
          exact hw
        · exact ih hw hend

theorem Tracked.endFlush (hend : s.hammerRedoFifoEndFlush i = some s') : s'.Tracked alloc := by
  obtain ⟨hremoved, hclean, hnext⟩ := h.remove i
  simp only [hammerRedoFifoEndFlush] at hend
  by_cases hnone : (if ((s.rbRemove i).inode i).bufs then
      ((s.rbRemove i).inode i).redoFifoNext else 0) = 0
  · rw [if_pos hnone] at hend
    cases hend
    exact hremoved.keep rfl rfl nofun
  · rw [if_neg hnone] at hend
    have hbounds : undoZoneBase ≤ (s.inode i).redoFifoNext ∧ (s.inode i).redoFifoNext < alloc := by
      apply h.next i
      intro hzero
      rw [hnext, hzero] at hnone
      simp at hnone
    have hset : ((s.rbRemove i).inode i).bufs = true := by
      by_contra hclear
      exact hnone (if_neg hclear)
    rw [if_pos hset, hnext] at hend
    refine hremoved.insert rfl hbounds ?_ hend
    exact fun _ => hbounds

theorem Tracked.step {e : Event I} (hstep : s.next e = some s') : s'.Tracked alloc := by
  cases e with
  | undo zoneOff base =>
    obtain ⟨undo, hundo, rfl⟩ := map_eq_some_iff.mp hstep
    apply h.withUndo
    apply UndoMount.inZone_undo _ hundo
    exact h.zone
  | redo ip fileOff flags base len =>
    simp only [RedoMount.next, hammerGenerateRedo] at hstep
    split_ifs at hstep
    obtain ⟨mid, hlay, hrest⟩ := bind_eq_some_iff.mp hstep
    split_ifs at hrest
    · exact (h.layRedos hlay).redoSync hrest
    · cases hrest
      exact h.layRedos hlay
  | sync => exact h.redoSync hstep
  | startFlush i =>
    cases hstep
    exact h.keep rfl rfl nofun
  | endFlush i => exact h.endFlush hstep
  | bufs i bufs =>
    cases hstep
    exact h.keep rfl rfl (h.next i)
  | unload i =>
    cases hstep
    exact (h.remove i).1
  | flushed first =>
    cases hstep
    exact h.withUndo h.zone

end

/-! ## The oldest inode -/

/-- A REDO_SYNC reaches far enough back exactly when no wrap lies between the REDO
records of the dirty inodes. -/
theorem syncReaches_iff (h : Reachable Mounted (fun _ _ => True) RedoMount.next s) :
    s.SyncReaches ↔ ¬s.Straddles := by
  obtain ⟨alloc, hs⟩ : ∃ alloc, s.Tracked alloc :=
    h.invariant (fun s => ∃ alloc, s.Tracked alloc) (fun _ hstart => ⟨_, hstart.tracked⟩)
      fun _ _ _ ⟨alloc, hinv⟩ _ hstep => ⟨alloc, hinv.step hstep⟩
  constructor
  · rintro hreaches ⟨i, j, hi, hj, hbefore, hafter⟩
    have hle := (hs.syncOffset_spec hi).2
    obtain ⟨k, hk, hoffset⟩ := (hs.syncOffset_spec hi).1
    have hbase := (hs.start k hk).1
    rw [← hoffset] at hbase
    have hlt := hs.age_lt hbase (hs.start j hj).2 (lt_of_le_of_lt hle hbefore) hafter
    exact absurd (hreaches j hj) (not_le.mpr hlt)
  · intro hside i hi
    obtain ⟨⟨k, hk, hoffset⟩, hle⟩ := hs.syncOffset_spec hi
    apply age_le_of_le hle
    intro hbefore
    by_contra hafter
    rw [hoffset] at hbefore
    exact hside ⟨k, i, hk, hi, hbefore, not_lt.mp hafter⟩

/-! ## Two inodes around the end of the zone -/

/-- A FIFO of 128K whose append offset stands in its last sector. -/
def lastSector : RedoMount Bool where
  undo :=
    { version := 4
      writer := ⟨⟨undoZoneBase + 131072, []⟩, undoZoneBase + 130560, 1⟩
      diskFirstOffset := undoZoneBase + 130560
      undoLruList := []
      redoSync := true
      redoFifoStart := 0
      media := fun _ => 0 }
  inode i := ⟨if i then 2 else 1, 0, 0, 0, false, true⟩
  rbRedoRoot := []
  redoRecoveryRun := false
  recoverStage2Offset := 0

theorem lastSector_mounted : lastSector.Mounted := by
  refine ⟨rfl, ⟨rfl, ?_, ?_, ?_, ?_, ?_⟩, rfl, fun _ => rfl, fun _ => rfl⟩ <;> decide

/-- One inode fills the sector, the other begins behind the wrap. -/
def aroundTheEnd : List (Event Bool) :=
  [.redo (some false) 0 .write (some (List.replicate 448 0)) 448, .redo (some true) 0 .trunc none 0]

theorem syncReaches_before_wrap :
    ∃ s : RedoMount Bool, Reachable Mounted (fun _ _ => True) RedoMount.next s ∧
      (s.inode false).rdirty = true ∧ s.SyncReaches := by
  have hrun : (runEvents (fun _ _ => True) RedoMount.next lastSector
      (aroundTheEnd.take 1)).map (fun s => (s.inode false, s.inode true)) =
      some (⟨1, 0, undoZoneBase + 130560, undoZoneBase + 130560, true, true⟩,
        ⟨2, 0, 0, 0, false, true⟩) := by
    decide +kernel
  obtain ⟨s, hreach, hview⟩ := (Reachable.start lastSector_mounted).view hrun
  rw [Prod.mk.injEq] at hview
  obtain ⟨hold, hnew⟩ := hview
  refine ⟨s, hreach, by rw [hold], (syncReaches_iff hreach).mpr ?_⟩
  rintro ⟨i, j, hi, hj, hbefore, hafter⟩
  have hfirst : ∀ i, (s.inode i).rdirty = true → i = false := by
    intro i hi
    cases i with
    | false => rfl
    | true =>
      rw [hnew] at hi
      cases hi
  rw [hfirst i hi] at hbefore
  rw [hfirst j hj] at hafter
  omega

theorem not_syncReaches_after_wrap :
    ∃ s : RedoMount Bool,
      Reachable Mounted (fun _ _ => True) RedoMount.next s ∧ ¬s.SyncReaches := by
  have hrun : (runEvents (fun _ _ => True) RedoMount.next lastSector aroundTheEnd).map
      (fun s => (s.inode false, s.age (undoZoneBase + 130560), s.age s.syncOffset)) =
      some (⟨1, 0, undoZoneBase + 130560, undoZoneBase + 130560, true, true⟩, 576, 64) := by
    decide +kernel
  obtain ⟨s, hreach, hview⟩ := (Reachable.start lastSector_mounted).view hrun
  simp only [Prod.mk.injEq] at hview
  obtain ⟨hold, hage, hsync⟩ := hview
  refine ⟨s, hreach, ?_⟩
  intro hreaches
  have hle := hreaches false (by rw [hold])
  rw [hold, hage, hsync] at hle
  omega

end RedoMount

end DragonFly.Hammer
