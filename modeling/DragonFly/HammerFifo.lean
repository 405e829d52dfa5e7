import Mathlib

/-!
# The HAMMER UNDO/REDO FIFO

The FIFO is modelled at record granularity: a media image maps the offset of
each record header to the record laid down there.  Signatures and CRCs only
decide whether a header is accepted at all, so an accepted header is a record
of the image and a rejected one is the absence of a record.

Offsets are zone-3 offsets.  The last record before `allocOffset` is followed
by the record at the base of the zone, and both scans wrap there.
-/

namespace DragonFly.Hammer

open List

def hammerBufsize : ℕ := 16384

/-- `HAMMER_ZONE_ENCODE`: the zone index lives in the top four bits. -/
def hammerZoneEncode (zone offset : ℕ) : ℕ :=
  zone * 2 ^ 60 + offset

def undoZoneBase : ℕ :=
  hammerZoneEncode 3 0

inductive Errno
  | eio
  | erange
  | enoent
  | enospc
  | ealready
  | einval
  deriving DecidableEq

inductive RedoFlags
  | write
  | trunc
  | termWrite
  | termTrunc
  | sync
  deriving DecidableEq

def RedoFlags.code : RedoFlags → ℕ
  | .write => 0x00000001
  | .trunc => 0x00000002
  | .termWrite => 0x00000004
  | .termTrunc => 0x00000008
  | .sync => 0x00000010

structure HammerFifoRedo where
  redoObjid : ℤ
  redoOffset : ℕ
  redoDataBytes : ℕ
  redoFlags : RedoFlags
  redoLocalization : ℕ
  redoData : List UInt8
  deriving DecidableEq

structure HammerFifoUndo where
  undoOffset : ℕ
  undoDataBytes : ℕ
  undoData : List UInt8
  deriving DecidableEq

inductive HammerFifoAny
  | pad
  | dummy
  | undo (undo : HammerFifoUndo)
  | redo (redo : HammerFifoRedo)
  deriving DecidableEq

structure HammerFifoHead where
  hdrSize : ℕ
  hdrSeq : UInt32
  any : HammerFifoAny
  deriving DecidableEq

def HammerFifoHead.isPad (head : HammerFifoHead) : Bool :=
  match head.any with
  | .pad => true
  | _ => false

/-- A media image of the FIFO together with the end of the zone. -/
structure UndoFifo where
  allocOffset : ℕ
  records : List (ℕ × HammerFifoHead)

section

variable (fifo : UndoFifo)

def UndoFifo.headAt (offset : ℕ) : Option HammerFifoHead :=
  (fifo.records.find? fun entry => entry.1 = offset).map Prod.snd

def UndoFifo.tailAt (offset : ℕ) : Option HammerFifoHead :=
  (fifo.records.find? fun entry =>
    entry.1 + entry.2.hdrSize = offset).map Prod.snd

def fifoTailSize : ℕ := 8

/-- Return the record before `scanOffset` and its offset. -/
def hammerRecoverScanRev (scanOffset : ℕ) : Except Errno (HammerFifoHead × ℕ) :=
  let offset :=
    if scanOffset = undoZoneBase then fifo.allocOffset else scanOffset
  if offset < undoZoneBase + fifoTailSize then
    .error .eio
  else
    match fifo.tailAt offset with
    | none => .error .eio
    | some head => .ok (head, offset - head.hdrSize)

/-- Return the record at `scanOffset` and the offset following it. -/
def hammerRecoverScanFwd (scanOffset : ℕ) : Except Errno (HammerFifoHead × ℕ) :=
  let offset :=
    if scanOffset = fifo.allocOffset then undoZoneBase else scanOffset
  match fifo.headAt offset with
  | none => .error .eio
  | some head =>
    let next := offset + head.hdrSize
    .ok (head, if next = fifo.allocOffset then undoZoneBase else next)

end

def offLongMask (offset : ℕ) : ℕ :=
  offset % 2 ^ 60

/-- The size of the nominal UNDO range, as both stages compute it. -/
def nominalBytes (allocOffset firstOffset lastOffset : ℕ) : ℤ :=
  if lastOffset ≥ firstOffset then
    (lastOffset : ℤ) - firstOffset
  else
    (allocOffset : ℤ) - firstOffset + offLongMask lastOffset

/-! ## Records laid down one after the other -/

/-- The offset of the byte `position` bytes after the base of a FIFO of `size`
bytes; positions run on past the end of the zone once. -/
def fifoOffset (size position : ℕ) : ℕ :=
  undoZoneBase + if position < size then position else position - size

def spanSize (heads : List HammerFifoHead) : ℕ :=
  (heads.map HammerFifoHead.hdrSize).sum

@[simp] theorem spanSize_nil : spanSize [] = 0 := rfl

@[simp] theorem spanSize_cons (head : HammerFifoHead) (heads : List HammerFifoHead) :
    spanSize (head :: heads) = head.hdrSize + spanSize heads := by
  simp [spanSize]

@[simp] theorem spanSize_append (before after : List HammerFifoHead) :
    spanSize (before ++ after) = spanSize before + spanSize after := by
  simp [spanSize]

def layout (size : ℕ) : ℕ → List HammerFifoHead → List (ℕ × HammerFifoHead)
  | _, [] => []
  | position, head :: heads =>
    (fifoOffset size position, head) :: layout size (position + head.hdrSize) heads

/-- Every record is large enough for its head and tail and ends at or before
the end of the zone. -/
def Fits (size : ℕ) : ℕ → List HammerFifoHead → Prop
  | _, [] => True
  | position, head :: heads =>
    fifoTailSize ≤ head.hdrSize ∧ (position < size → position + head.hdrSize ≤ size) ∧
      Fits size (position + head.hdrSize) heads

theorem layout_append (size position : ℕ) (before after : List HammerFifoHead) :
    layout size position (before ++ after) = layout size position before ++
        layout size (position + spanSize before) after := by
  induction before generalizing position with
  | nil => simp [layout]
  | cons head before ih =>
    simp only [cons_append, layout, spanSize_cons]
    rw [ih, Nat.add_assoc]

variable {size position : ℕ} {before after : List HammerFifoHead}

theorem fits_append :
    Fits size position (before ++ after) ↔ Fits size position before ∧
        Fits size (position + spanSize before) after := by
  induction before generalizing position with
  | nil => simp [Fits]
  | cons head before ih =>
    simp only [cons_append, Fits, spanSize_cons]
    rw [ih, Nat.add_assoc]
    tauto

theorem mem_layout (hentry : entry ∈ layout size position heads) :
    ∃ before after, heads = before ++ entry.2 :: after ∧
      entry.1 = fifoOffset size (position + spanSize before) := by
  induction heads generalizing position with
  | nil => simp [layout] at hentry
  | cons head heads ih =>
    simp only [layout, mem_cons] at hentry
    rcases hentry with rfl | hentry
    · exact ⟨[], heads, rfl, by simp⟩
    · obtain ⟨before, after, hheads, hoffset⟩ := ih hentry
      refine ⟨head :: before, after, by simp [hheads], ?_⟩
      rw [hoffset, spanSize_cons, Nat.add_assoc]

theorem fits_mem {head : HammerFifoHead} (hfits : Fits size position (before ++ head :: after)) :
    fifoTailSize ≤ head.hdrSize ∧ (position + spanSize before < size →
        position + spanSize before + head.hdrSize ≤ size) := by
  have hrest := (fits_append.mp hfits).2
  exact ⟨hrest.1, hrest.2.1⟩

/-- The image holds the given consecutive records, starting at `position`. -/
structure UndoFifo.Holds (fifo : UndoFifo) (size position : ℕ)
    (heads : List HammerFifoHead) : Prop where
  allocOffset : fifo.allocOffset = undoZoneBase + size
  headAt : ∀ entry ∈ layout size position heads, fifo.headAt entry.1 = some entry.2
  tailAt : ∀ entry ∈ layout size position heads,
    fifo.tailAt (entry.1 + entry.2.hdrSize) = some entry.2

theorem mem_layout_append
    (size position : ℕ) (before after : List HammerFifoHead) (head : HammerFifoHead) :
    (fifoOffset size (position + spanSize before), head) ∈
      layout size position (before ++ head :: after) := by
  rw [layout_append]
  simp [layout]

section Scans

variable {fifo : UndoFifo} {size position : ℕ}
  {before after : List HammerFifoHead} {head : HammerFifoHead}

variable (hholds : fifo.Holds size position (before ++ head :: after))
include hholds

section

variable (hstart : position < size) (hfits : Fits size position (before ++ head :: after))
  (hroom : spanSize (before ++ head :: after) ≤ size)
include hstart hfits hroom

theorem UndoFifo.Holds.scanFwd :
    hammerRecoverScanFwd fifo (fifoOffset size (position + spanSize before)) = .ok (head,
        fifoOffset size (position + spanSize (before ++ [head]))) := by
  have hhead := hholds.headAt _ (mem_layout_append _ _ _ _ _)
  obtain ⟨hsize, hend⟩ := fits_mem hfits
  simp only [spanSize_append, spanSize_cons, fifoTailSize] at hroom hsize
  have hne : fifoOffset size (position + spanSize before) ≠ undoZoneBase + size := by
    unfold fifoOffset
    split_ifs <;> omega
  have hnext : (if fifoOffset size (position + spanSize before) + head.hdrSize =
          undoZoneBase + size then undoZoneBase
        else fifoOffset size (position + spanSize before) + head.hdrSize) =
        fifoOffset size (position + spanSize (before ++ [head])) := by
    simp only [fifoOffset, spanSize_append, spanSize_cons, spanSize_nil]
    split_ifs <;> omega
  unfold hammerRecoverScanFwd
  rw [hholds.allocOffset, if_neg hne]
  simp only [hhead, hnext]

/-- The reverse scan from the end of a record returns that record, also when
the end of the record is the end of the zone. -/
theorem UndoFifo.Holds.scanRev
    (hscan : scanOffset = fifoOffset size (position + spanSize (before ++ [head])) ∨ scanOffset =
        fifoOffset size (position + spanSize before) + head.hdrSize) :
    hammerRecoverScanRev fifo scanOffset =
      .ok (head, fifoOffset size (position + spanSize before)) := by
  have htail := hholds.tailAt _ (mem_layout_append _ _ _ _ _)
  obtain ⟨hsize, hend⟩ := fits_mem hfits
  simp only [spanSize_append, spanSize_cons, fifoTailSize] at hroom hsize
  have hoffset : (if scanOffset = undoZoneBase then undoZoneBase + size else scanOffset) =
        fifoOffset size (position + spanSize before) + head.hdrSize := by
    simp only [fifoOffset, spanSize_append, spanSize_cons, spanSize_nil] at hscan ⊢
    split_ifs at hscan ⊢ <;> omega
  have hunderflow : ¬fifoOffset size (position + spanSize before) + head.hdrSize <
        undoZoneBase + fifoTailSize := by
    simp only [fifoOffset, fifoTailSize]
    omega
  unfold hammerRecoverScanRev
  rw [hholds.allocOffset, hoffset]
  simp only [if_neg hunderflow, htail, Nat.add_sub_cancel]

end

end Scans

/-! ## An image of consecutive records only -/

def laidOut (size position : ℕ) (heads : List HammerFifoHead) : UndoFifo where
  allocOffset := undoZoneBase + size
  records := layout size position heads

section LaidOut

variable {size position : ℕ} {before after heads : List HammerFifoHead}
  {head : HammerFifoHead}

theorem headAt_laidOut (hfits : Fits size position (before ++ head :: after))
    (hroom : spanSize (before ++ head :: after) ≤ size) :
    (laidOut size position (before ++ head :: after)).headAt
        (fifoOffset size (position + spanSize before)) = some head := by
  have hnone :
      (layout size position before).find? (fun entry =>
        entry.1 = fifoOffset size (position + spanSize before)) = none := by
    rw [find?_eq_none]
    intro entry hentry
    obtain ⟨first, rest, hbefore, hoffset⟩ := mem_layout hentry
    have hhead := (fits_mem hfits).1
    have hsize : fifoTailSize ≤ entry.2.hdrSize := by
      rw [hbefore, append_assoc, cons_append] at hfits
      exact (fits_mem hfits).1
    subst hbefore
    simp only [spanSize_append, spanSize_cons] at hroom
    simp only [hoffset, spanSize_append, spanSize_cons, fifoOffset,
      fifoTailSize, decide_eq_true_eq] at hsize hhead ⊢
    split_ifs <;> omega
  unfold UndoFifo.headAt laidOut
  rw [layout_append, find?_append, hnone]
  simp [layout]

theorem tailAt_laidOut (hfits : Fits size position (before ++ head :: after))
    (hroom : spanSize (before ++ head :: after) ≤ size) :
    (laidOut size position (before ++ head :: after)).tailAt
        (fifoOffset size (position + spanSize before) + head.hdrSize) = some head := by
  have hnone :
      (layout size position before).find? (fun entry =>
        entry.1 + entry.2.hdrSize = fifoOffset size (position + spanSize before) + head.hdrSize) =
        none := by
    rw [find?_eq_none]
    intro entry hentry
    obtain ⟨first, rest, hbefore, hoffset⟩ := mem_layout hentry
    obtain ⟨hsize, hend⟩ := fits_mem hfits
    subst hbefore
    have hfirst := hfits
    rw [append_assoc, cons_append] at hfirst
    obtain ⟨hentrySize, hentryEnd⟩ := fits_mem hfirst
    simp only [spanSize_append, spanSize_cons] at hroom hend
    simp only [hoffset, spanSize_append, spanSize_cons, fifoOffset,
      fifoTailSize, decide_eq_true_eq] at hsize hentrySize ⊢
    split_ifs <;> omega
  unfold UndoFifo.tailAt laidOut
  rw [layout_append, find?_append, hnone]
  simp [layout]

theorem laidOut_holds (hfits : Fits size position heads) (hroom : spanSize heads ≤ size) :
    (laidOut size position heads).Holds size position heads where
  allocOffset := rfl
  headAt := by
    intro entry hentry
    obtain ⟨before, after, rfl, hoffset⟩ := mem_layout hentry
    rw [hoffset]
    exact headAt_laidOut hfits hroom
  tailAt := by
    intro entry hentry
    obtain ⟨before, after, rfl, hoffset⟩ := mem_layout hentry
    rw [hoffset]
    exact tailAt_laidOut hfits hroom

theorem scanRev_laidOut_start (hstart : position < size) (hfits : Fits size position heads)
    (hroom : spanSize heads < size) (hscan : scanOffset = fifoOffset size position ∨
      (position = 0 ∧ scanOffset = undoZoneBase + size)) :
    hammerRecoverScanRev (laidOut size position heads) scanOffset = .error .eio := by
  have hoffset : (if scanOffset = undoZoneBase then undoZoneBase + size else scanOffset) =
        undoZoneBase + if position = 0 then size else position := by
    simp only [fifoOffset] at hscan
    split_ifs at hscan ⊢ <;> omega
  have hnone : (laidOut size position heads).tailAt
        (undoZoneBase + if position = 0 then size else position) =
          none := by
    unfold UndoFifo.tailAt laidOut
    rw [Option.map_eq_none_iff, find?_eq_none]
    intro entry hentry
    obtain ⟨first, rest, hheads, hentryOffset⟩ := mem_layout hentry
    subst hheads
    obtain ⟨hsize, hend⟩ := fits_mem hfits
    simp only [spanSize_append, spanSize_cons] at hroom
    simp only [hentryOffset, fifoOffset, fifoTailSize, decide_eq_true_eq] at hsize ⊢
    split_ifs <;> omega
  unfold hammerRecoverScanRev
  simp only [show (laidOut size position heads).allocOffset = undoZoneBase + size from rfl]
  rw [hoffset, hnone]
  simp

end LaidOut

end DragonFly.Hammer
