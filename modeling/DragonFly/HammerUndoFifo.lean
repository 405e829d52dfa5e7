import DragonFly.HammerFifo

/-!
# Laying records down in the UNDO/REDO FIFO

The append loops of `hammer_generate_undo` and `hammer_generate_redo`.  Every
record lies inside one 512-byte sector and a sector never starts with a PAD.
A new buffer is preformatted with DUMMY records, and the rest of the sector
behind the last record is covered by a PAD the next record overwrites.

The image keeps overwritten records behind the records that replace them.
-/

namespace DragonFly.Hammer

open List

def hammerUndoAlign : ℕ := 512

/-- `sizeof(struct hammer_fifo_undo) + sizeof(struct hammer_fifo_tail)`. -/
def undoOverhead : ℕ := 40

/-- `sizeof(struct hammer_fifo_redo) + sizeof(struct hammer_fifo_tail)`. -/
def redoOverhead : ℕ := 64

def headAlign (n : ℕ) : ℕ :=
  (n + 7) / 8 * 8

structure UndoWriter where
  fifo : UndoFifo
  nextOffset : ℕ
  undoSeqno : UInt32

def UndoFifo.lay (fifo : UndoFifo) (entries : List (ℕ × HammerFifoHead)) : UndoFifo :=
  { fifo with records := entries ++ fifo.records }

def hammerFormatUndo (offset : ℕ) (seqno : UInt32) : List (ℕ × HammerFifoHead) :=
  (List.range (hammerBufsize / hammerUndoAlign)).map fun i =>
    (offset + i * hammerUndoAlign, ⟨hammerUndoAlign, seqno + UInt32.ofNat i, .dummy⟩)

namespace UndoWriter

variable (writer : UndoWriter)

def wrap : UndoWriter :=
  { writer with
    nextOffset :=
      if writer.nextOffset = writer.fifo.allocOffset then undoZoneBase
      else writer.nextOffset }

/-- A buffer the append offset enters is not read in but preformatted. -/
def format : UndoWriter :=
  if writer.nextOffset % hammerBufsize = 0 then
    { writer with
      fifo := writer.fifo.lay
        (hammerFormatUndo writer.nextOffset (writer.undoSeqno ^^^ 0x40000000)) }
  else writer

def enter : UndoWriter :=
  writer.wrap.format

def sectorBytes : ℕ :=
  hammerUndoAlign - writer.nextOffset % hammerUndoAlign

/-- A PAD up to the alignment point; `none` is a failed `KKASSERT`. -/
def layPad : Option UndoWriter :=
  let bytes := writer.sectorBytes
  if bytes < fifoTailSize ∨ writer.nextOffset % hammerUndoAlign = 0 then
    none
  else
    some { writer with
      fifo := writer.fifo.lay [(writer.nextOffset, ⟨bytes, 0, .pad⟩)]
      nextOffset := writer.nextOffset + bytes }

/-- A record of `bytes` bytes and the PAD covering the rest of its sector. -/
def layRecord (bytes : ℕ) (any : HammerFifoAny) : Option UndoWriter :=
  let head : HammerFifoHead := ⟨bytes, writer.undoSeqno, any⟩
  let laid : UndoWriter :=
    { fifo := writer.fifo.lay [(writer.nextOffset, head)]
      nextOffset := writer.nextOffset + bytes
      undoSeqno := writer.undoSeqno + 1 }
  let rest := laid.sectorBytes
  if rest = hammerUndoAlign then
    some laid
  else if rest < fifoTailSize then
    none
  else
    some { laid with
      fifo := laid.fifo.lay [(laid.nextOffset, ⟨rest, 0, .pad⟩)] }

/-- One iteration of the loop of `hammer_generate_undo`, with the payload bytes
it lays down. -/
def layUndo (zoneOff : ℕ) (base : List UInt8) : Option (UndoWriter × ℕ) :=
  let writer := writer.enter
  let bytes := writer.sectorBytes
  if bytes ≤ undoOverhead then
    writer.layPad.map fun writer => (writer, 0)
  else
    let n := min (bytes - undoOverhead) base.length
    let bytes :=
      if bytes - undoOverhead > base.length then
        headAlign base.length + undoOverhead
      else bytes
    (writer.layRecord bytes (.undo ⟨zoneOff, n, base.take n⟩)).map
      fun writer => (writer, n)

def layUndos : ℕ → UndoWriter → ℕ → List UInt8 → Option UndoWriter
  | 0, _, _, _ => none
  | fuel + 1, writer, zoneOff, base =>
    if base.length = 0 then some writer
    else
      match writer.layUndo zoneOff base with
      | none => none
      | some (writer, n) =>
        layUndos fuel writer (zoneOff + n) (base.drop n)

/-- The loop of `hammer_generate_redo`.  Without a payload all of `len` goes
into the one record. -/
def layRedos (objid : ℤ) (localization : ℕ) (flags : RedoFlags) :
    ℕ → UndoWriter → ℕ → Option (List UInt8) → ℕ → Option UndoWriter
  | 0, _, _, _, _ => none
  | fuel + 1, writer, fileOff, base, len =>
    let writer := writer.enter
    let bytes := writer.sectorBytes
    if bytes ≤ redoOverhead then
      match writer.layPad with
      | none => none
      | some writer =>
        layRedos objid localization flags fuel writer fileOff base len
    else
      match base with
      | none =>
        writer.layRecord redoOverhead (.redo ⟨objid, fileOff, len, flags, localization, []⟩)
      | some data =>
        let n := min (bytes - redoOverhead) len
        match writer.layRecord (headAlign n + redoOverhead)
            (.redo ⟨objid, fileOff, n, flags, localization,
              data.take n⟩) with
        | none => none
        | some writer =>
          if len - n = 0 then some writer
          else
            layRedos objid localization flags fuel writer
              (fileOff + n) (some (data.drop n)) (len - n)

end UndoWriter

/-! ## Records laid down ahead of the ones the image holds -/

section Ahead

variable {fifo : UndoFifo} {size position : ℕ}
  {heads : List HammerFifoHead}

/-- The entry lies behind the given records and does not reach the first of
them. -/
def Ahead (size position : ℕ) (heads : List HammerFifoHead) (entry : ℕ × HammerFifoHead) : Prop :=
  ∃ place, position + spanSize heads ≤ place ∧ place + entry.2.hdrSize ≤ position + size ∧
    0 < entry.2.hdrSize ∧
    (place < size → place + entry.2.hdrSize ≤ size) ∧
    entry.1 = fifoOffset size place

theorem Ahead.ne (hahead : Ahead size position heads entry) (hfits : Fits size position heads)
    (hentry' : entry' ∈ layout size position heads) :
    entry.1 ≠ entry'.1 ∧ entry.1 + entry.2.hdrSize ≠ entry'.1 + entry'.2.hdrSize := by
  obtain ⟨place, hplace, hend, hpos, hzone, hoffset⟩ := hahead
  obtain ⟨before, after, rfl, hoffset'⟩ := mem_layout hentry'
  obtain ⟨hsize', hzone'⟩ := fits_mem hfits
  simp only [spanSize_append, spanSize_cons] at hplace
  simp only [hoffset, hoffset', fifoOffset, fifoTailSize] at hsize' ⊢
  constructor <;> split_ifs <;> omega

theorem UndoFifo.Holds.lay_ahead (hholds : fifo.Holds size position heads)
    (hfits : Fits size position heads)
    (hahead : ∀ entry ∈ entries, Ahead size position heads entry) :
    (fifo.lay entries).Holds size position heads where
  allocOffset := hholds.allocOffset
  headAt := by
    intro entry' hentry'
    have hnone : entries.find? (fun entry => entry.1 = entry'.1) = none := by
      rw [find?_eq_none]
      intro entry hentry
      simpa using ((hahead entry hentry).ne hfits hentry').1
    have hold := hholds.headAt entry' hentry'
    unfold UndoFifo.headAt UndoFifo.lay at *
    rw [find?_append, hnone]
    exact hold
  tailAt := by
    intro entry' hentry'
    have hnone :
        entries.find? (fun entry => entry.1 + entry.2.hdrSize =
          entry'.1 + entry'.2.hdrSize) = none := by
      rw [find?_eq_none]
      intro entry hentry
      simpa using ((hahead entry hentry).ne hfits hentry').2
    have hold := hholds.tailAt entry' hentry'
    unfold UndoFifo.tailAt UndoFifo.lay at *
    rw [find?_append, hnone]
    exact hold

theorem UndoFifo.Holds.lay_next {head : HammerFifoHead} (hholds : fifo.Holds size position heads)
    (hfits : Fits size position heads) (hahead : Ahead size position heads
      (fifoOffset size (position + spanSize heads), head)) :
    (fifo.lay [(fifoOffset size (position + spanSize heads), head)]).Holds
      size position (heads ++ [head]) := by
  have hall : ∀ entry ∈ [(fifoOffset size (position + spanSize heads), head)],
      Ahead size position heads entry := by
    simpa using hahead
  have hold := hholds.lay_ahead hfits hall
  have hsplit : ∀ entry ∈ layout size position (heads ++ [head]),
      entry ∈ layout size position heads ∨
        entry = (fifoOffset size (position + spanSize heads), head) := by
    intro entry hentry
    rw [layout_append] at hentry
    simpa [layout] using hentry
  refine ⟨hholds.allocOffset, ?_, ?_⟩
  · intro entry hentry
    rcases hsplit entry hentry with h | rfl
    · exact hold.headAt entry h
    · simp [UndoFifo.headAt, UndoFifo.lay]
  · intro entry hentry
    rcases hsplit entry hentry with h | rfl
    · exact hold.tailAt entry h
    · simp [UndoFifo.tailAt, UndoFifo.lay]

end Ahead

/-! ## The append invariant -/

/-- `offset` is where `place` lies, or still the end of the zone. -/
def AtPlace (size place offset : ℕ) : Prop :=
  offset = fifoOffset size place ∨
    (fifoOffset size place = undoZoneBase ∧ offset = undoZoneBase + size)

/-- The writer has laid down `heads` since it stood at `position`. -/
structure UndoWriter.Laid (writer : UndoWriter) (size position : ℕ)
    (heads : List HammerFifoHead) : Prop where
  size_mod : size % hammerBufsize = 0
  position_lt : position < size
  holds : writer.fifo.Holds size position heads
  fits : Fits size position heads
  room : spanSize heads ≤ size
  next : AtPlace size (position + spanSize heads) writer.nextOffset
  aligned : writer.nextOffset % 8 = 0

namespace UndoWriter.Laid

variable {writer : UndoWriter} {size position : ℕ}
  {heads : List HammerFifoHead}

theorem wrap_nextOffset (hlaid : writer.Laid size position heads) :
    writer.wrap.nextOffset = fifoOffset size (position + spanSize heads) := by
  have hnext := hlaid.next
  have hposition := hlaid.position_lt
  have hroom := hlaid.room
  simp only [UndoWriter.wrap, hlaid.holds.allocOffset, AtPlace, fifoOffset] at hnext ⊢
  split_ifs at hnext ⊢ <;> omega

theorem enter_nextOffset (hlaid : writer.Laid size position heads) :
    writer.enter.nextOffset = fifoOffset size (position + spanSize heads) := by
  rw [← hlaid.wrap_nextOffset]
  unfold UndoWriter.enter UndoWriter.format
  split_ifs <;> rfl

private theorem undoZoneBase_mod (place : ℕ) :
    (undoZoneBase + place) % 16384 = place % 16384 ∧ (undoZoneBase + place) % 512 = place % 512 ∧
      (undoZoneBase + place) % 8 = place % 8 := by
  unfold undoZoneBase hammerZoneEncode
  omega

section

variable (hlaid : writer.Laid size position heads)
include hlaid

theorem format_ahead (hspace : spanSize heads + hammerBufsize ≤ size) (haligned :
      fifoOffset size (position + spanSize heads) % hammerBufsize = 0) (seqno : UInt32) :
    ∀ entry ∈ hammerFormatUndo (fifoOffset size (position + spanSize heads)) seqno,
      Ahead size position heads entry := by
  intro entry hentry
  obtain ⟨i, hi, rfl⟩ := mem_map.mp hentry
  have hsize := hlaid.size_mod
  simp only [hammerBufsize, hammerUndoAlign, mem_range] at hi
  simp only [hammerBufsize] at hsize hspace haligned
  refine ⟨position + spanSize heads + i * 512, by omega, ?_, ?_, ?_, ?_⟩
  · simp only [hammerUndoAlign]
    omega
  · simp [hammerUndoAlign]
  · simp only [hammerUndoAlign, fifoOffset] at haligned ⊢
    rw [(undoZoneBase_mod _).1] at haligned
    split_ifs at haligned <;> omega
  · simp only [hammerUndoAlign, fifoOffset] at haligned ⊢
    rw [(undoZoneBase_mod _).1] at haligned
    split_ifs at haligned ⊢ <;> omega

theorem enter (hspace : spanSize heads + hammerBufsize ≤ size) :
    writer.enter.Laid size position heads := by
  have hnext := hlaid.enter_nextOffset
  have hwrap := hlaid.wrap_nextOffset
  have hholds : writer.enter.fifo.Holds size position heads := by
    unfold UndoWriter.enter UndoWriter.format
    split_ifs with haligned
    · rw [hwrap] at haligned ⊢
      exact hlaid.holds.lay_ahead hlaid.fits (hlaid.format_ahead hspace haligned _)
    · exact hlaid.holds
  have haligned : writer.enter.nextOffset % 8 = 0 := by
    have hold := hlaid.aligned
    have hplace := hlaid.next
    rw [hnext]
    simp only [AtPlace, fifoOffset] at hplace ⊢
    rw [(undoZoneBase_mod _).2.2]
    rcases hplace with hplace | ⟨hplace, -⟩
    · rw [hplace, (undoZoneBase_mod _).2.2] at hold
      exact hold
    · split_ifs at hplace ⊢ <;> omega
  exact ⟨hlaid.size_mod, hlaid.position_lt, hholds, hlaid.fits, hlaid.room, Or.inl hnext, haligned⟩

section

variable (hnext : writer.nextOffset = fifoOffset size (position + spanSize heads))
include hnext

variable (hspace : spanSize heads + hammerUndoAlign ≤ size)
include hspace

theorem next_ahead
    {head : HammerFifoHead} (hpos : 0 < head.hdrSize) (hbytes : head.hdrSize ≤ writer.sectorBytes) :
    Ahead size position heads (fifoOffset size (position + spanSize heads), head) := by
  have hsize := hlaid.size_mod
  simp only [UndoWriter.sectorBytes, hnext, hammerUndoAlign,
    hammerBufsize, fifoOffset, (undoZoneBase_mod _).2.1]
    at hbytes hsize hspace
  refine ⟨position + spanSize heads, le_rfl, ?_, hpos, ?_, rfl⟩
  · simp only
    omega
  · simp only
    split_ifs at hbytes <;> omega

theorem lay (head : HammerFifoHead) (seqno : UInt32) (hpos : fifoTailSize ≤ head.hdrSize)
    (haligned : head.hdrSize % 8 = 0) (hbytes : head.hdrSize ≤ writer.sectorBytes) :
    UndoWriter.Laid
      ⟨writer.fifo.lay [(writer.nextOffset, head)], writer.nextOffset + head.hdrSize, seqno⟩
      size position (heads ++ [head]) := by
  have hahead := hlaid.next_ahead hnext hspace (Nat.lt_of_lt_of_le (by decide) hpos) hbytes
  have hfits : Fits size position (heads ++ [head]) := by
    obtain ⟨place, hplace, hend, -, hzone, hoffset⟩ := hahead
    refine fits_append.mpr ⟨hlaid.fits, hpos, ?_, trivial⟩
    simp only [fifoOffset] at hoffset hzone hplace hend
    split_ifs at hoffset <;> omega
  have hholds := hlaid.holds.lay_next hlaid.fits hahead
  have hold := hlaid.aligned
  have hsize := hlaid.size_mod
  rw [← hnext] at hholds
  refine ⟨hlaid.size_mod, hlaid.position_lt, hholds, hfits, ?_, ?_, ?_⟩
  · simp only [UndoWriter.sectorBytes, hammerUndoAlign] at hbytes hspace
    simp only [spanSize_append, spanSize_cons, spanSize_nil]
    omega
  · simp only [UndoWriter.sectorBytes, hnext, hammerUndoAlign,
      hammerBufsize, fifoOffset, (undoZoneBase_mod _).2.1]
      at hbytes hsize hspace
    simp only [AtPlace, hnext, fifoOffset, spanSize_append, spanSize_cons, spanSize_nil]
    split_ifs at hbytes ⊢ <;> omega
  · simp only
    omega

theorem layPad (hsector : writer.nextOffset % hammerUndoAlign ≠ 0) :
    ∃ writer', writer.layPad = some writer' ∧
      writer'.nextOffset = writer.nextOffset + writer.sectorBytes ∧ writer'.Laid size position
        (heads ++ [⟨writer.sectorBytes, 0, .pad⟩]) := by
  have haligned := hlaid.aligned
  have hbytes : fifoTailSize ≤ writer.sectorBytes ∧ writer.sectorBytes % 8 = 0 := by
    simp only [UndoWriter.sectorBytes, hammerUndoAlign, fifoTailSize] at hsector ⊢
    omega
  have hlay := hlaid.lay hnext hspace ⟨writer.sectorBytes, 0, .pad⟩ writer.undoSeqno
    hbytes.1 hbytes.2 le_rfl
  refine ⟨_, ?_, ?_, hlay⟩
  · unfold UndoWriter.layPad
    rw [if_neg]
    exact not_or.mpr ⟨not_lt.mpr hbytes.1, hsector⟩
  · rfl

end

theorem coverRest (hrest : writer.sectorBytes ≠ hammerUndoAlign)
    (hroom : spanSize heads + writer.sectorBytes ≤ size) :
    UndoWriter.Laid
      { writer with
        fifo := writer.fifo.lay
          [(writer.nextOffset, ⟨writer.sectorBytes, 0, .pad⟩)] }
      size position heads := by
  have hzone := hlaid.size_mod
  have hoffset : writer.nextOffset = fifoOffset size (position + spanSize heads) := by
    rcases hlaid.next with hplace | ⟨-, hplace⟩
    · exact hplace
    · simp only [UndoWriter.sectorBytes, hammerUndoAlign, hplace, (undoZoneBase_mod _).2.1] at hrest
      simp only [hammerBufsize] at hzone
      omega
  have hall : ∀ entry ∈ [(writer.nextOffset, (⟨writer.sectorBytes, 0, .pad⟩ : HammerFifoHead))],
      Ahead size position heads entry := by
    intro entry hentry
    rw [mem_singleton] at hentry
    subst hentry
    refine ⟨position + spanSize heads, le_rfl, ?_, ?_, ?_, hoffset⟩
    · simp only
      omega
    · simp only [UndoWriter.sectorBytes, hammerUndoAlign]
      omega
    · simp only [UndoWriter.sectorBytes, hammerUndoAlign, hoffset,
        fifoOffset, (undoZoneBase_mod _).2.1] at hrest ⊢
      simp only [hammerBufsize] at hzone
      split_ifs at hrest ⊢ <;> omega
  exact ⟨hlaid.size_mod, hlaid.position_lt,
    hlaid.holds.lay_ahead hlaid.fits hall, hlaid.fits, hlaid.room,
    hlaid.next, hlaid.aligned⟩

theorem layRecord (hnext : writer.nextOffset = fifoOffset size (position + spanSize heads))
    (hspace : spanSize heads + hammerUndoAlign ≤ size) (any : HammerFifoAny)
    (hpos : fifoTailSize ≤ bytes) (haligned : bytes % 8 = 0) (hbytes : bytes ≤ writer.sectorBytes) :
    ∃ writer', writer.layRecord bytes any = some writer' ∧
      writer'.nextOffset = writer.nextOffset + bytes ∧ writer'.Laid size position
        (heads ++ [⟨bytes, writer.undoSeqno, any⟩]) := by
  have hlay := hlaid.lay hnext hspace ⟨bytes, writer.undoSeqno, any⟩ (writer.undoSeqno + 1)
    hpos haligned hbytes
  generalize hhead :
    (⟨bytes, writer.undoSeqno, any⟩ : HammerFifoHead) = head at hlay ⊢
  have hsize : head.hdrSize = bytes := by
    rw [← hhead]
  rw [hsize] at hlay
  generalize hwriter :
    (⟨writer.fifo.lay [(writer.nextOffset, head)],
      writer.nextOffset + bytes, writer.undoSeqno + 1⟩ : UndoWriter) =
      laid at hlay
  have hlaidNext : laid.nextOffset = writer.nextOffset + bytes := by
    rw [← hwriter]
  have hdef : writer.layRecord bytes any = if laid.sectorBytes = hammerUndoAlign then some laid
        else if laid.sectorBytes < fifoTailSize then none
        else some { laid with
          fifo := laid.fifo.lay
            [(laid.nextOffset, ⟨laid.sectorBytes, 0, .pad⟩)] } := by
    rw [← hwriter, ← hhead]
    rfl
  rw [hdef]
  by_cases hfull : laid.sectorBytes = hammerUndoAlign
  · rw [if_pos hfull]
    exact ⟨laid, rfl, hlaidNext, hlay⟩
  · have hrest := hlay.aligned
    have hshort : ¬laid.sectorBytes < fifoTailSize := by
      simp only [UndoWriter.sectorBytes, hammerUndoAlign, fifoTailSize] at hfull ⊢
      omega
    rw [if_neg hfull, if_neg hshort]
    have hroom : spanSize (heads ++ [head]) + laid.sectorBytes ≤ size := by
      simp only [UndoWriter.sectorBytes, hammerUndoAlign, hlaidNext,
        spanSize_append, spanSize_cons, spanSize_nil, hsize]
        at hfull hspace hbytes ⊢
      omega
    exact ⟨_, rfl, hlaidNext, hlay.coverRest hfull hroom⟩

end

end UndoWriter.Laid

/-! ## What one call lays down -/

/-- The records of one `hammer_generate_undo`: the payload in pieces, each in a
record large enough for it, and PADs between them. -/
inductive UndoPieces : ℕ → List UInt8 → List HammerFifoHead → Prop
  | done (zoneOff : ℕ) : UndoPieces zoneOff [] []
  | pad (bytes : ℕ) (h : UndoPieces zoneOff base heads) :
      UndoPieces zoneOff base (⟨bytes, 0, .pad⟩ :: heads)
  | piece (n bytes : ℕ) (seqno : UInt32) (hpos : 0 < n) (hn : n ≤ base.length)
      (hbytes : n + undoOverhead ≤ bytes) (h : UndoPieces (zoneOff + n) (base.drop n) heads) :
      UndoPieces zoneOff base (⟨bytes, seqno, .undo ⟨zoneOff, n, base.take n⟩⟩ :: heads)

variable {zoneOff : ℕ} {base : List UInt8}

theorem UndoPieces.length_le_span (h : UndoPieces zoneOff base heads) :
    base.length ≤ spanSize heads := by
  induction h with
  | done => simp
  | pad bytes _ ih =>
    rw [spanSize_cons]
    omega
  | piece n bytes seqno hpos hn hbytes _ ih =>
    rw [length_drop] at ih
    rw [spanSize_cons]
    simp only
    omega

/-- FIFO bytes an UNDO of `len` bytes needs at most. -/
def undoBudget (nextOffset len : ℕ) : ℕ :=
  (hammerUndoAlign - nextOffset % hammerUndoAlign) % hammerUndoAlign +
    hammerUndoAlign * ((len + 471) / 472)

namespace UndoWriter.Laid

variable {writer : UndoWriter} {size position : ℕ}
  {heads : List HammerFifoHead}

section

variable (hlaid : writer.Laid size position heads)
include hlaid

theorem enter_nextOffset_mod :
    writer.enter.nextOffset % 512 = writer.nextOffset % 512 := by
  have hzone := hlaid.size_mod
  rw [hlaid.enter_nextOffset]
  rcases hlaid.next with hplace | ⟨hbase, hplace⟩
  · rw [hplace]
  · have hsize := (undoZoneBase_mod size).2.1
    rw [hbase, hplace]
    simp only [hammerBufsize] at hzone
    omega

/-- What one iteration does: it adds one record, of which the PADs carry no
payload, and stays inside the budget. -/
theorem layUndo (zoneOff : ℕ)
    (hspace : spanSize heads + hammerBufsize + hammerUndoAlign ≤ size) (hbase : base.length ≠ 0) :
    ∃ writer' n head, writer.layUndo zoneOff base = some (writer', n) ∧
      writer'.Laid size position (heads ++ [head]) ∧
      (∀ rest, UndoPieces (zoneOff + n) (base.drop n) rest →
        UndoPieces zoneOff base (head :: rest)) ∧
      head.hdrSize + undoBudget writer'.nextOffset (base.length - n) ≤
        undoBudget writer.nextOffset base.length ∧
      2 * (base.length - n) + (if writer'.nextOffset % 512 = 0 then 0 else 1) < 2 * base.length +
          (if writer.nextOffset % 512 = 0 then 0 else 1) := by
  have hmod := hlaid.enter_nextOffset_mod
  have hnext := hlaid.enter_nextOffset
  have henter := hlaid.enter (by omega)
  unfold UndoWriter.layUndo
  generalize writer.enter = entered at hmod hnext henter ⊢
  have haligned := henter.aligned
  have hsector : entered.sectorBytes = 512 - entered.nextOffset % 512 := rfl
  have hspace' : spanSize heads + hammerUndoAlign ≤ size := by omega
  by_cases hpad : entered.sectorBytes ≤ undoOverhead
  · have hne : entered.nextOffset % hammerUndoAlign ≠ 0 := by
      simp only [undoOverhead, hammerUndoAlign] at hpad ⊢
      omega
    obtain ⟨padded, hsome, hpadNext, hpadded⟩ := henter.layPad hnext hspace' hne
    have hzero : padded.nextOffset % 512 = 0 := by
      rw [hpadNext, hsector]
      omega
    refine ⟨padded, 0, _, ?_, hpadded, ?_, ?_, ?_⟩
    · simp [hpad, hsome]
    · intro rest hrest
      exact .pad _ (by simpa using hrest)
    · simp only [undoBudget, hammerUndoAlign, undoOverhead, hzero, hsector,
        ← hmod, Nat.sub_zero] at hpad ⊢
      omega
    · simp only [hammerUndoAlign] at hne
      simp only [hzero, ← hmod, if_neg hne, if_true]
      omega
  · generalize hn :
      min (entered.sectorBytes - undoOverhead) base.length = n
    generalize hbytes :
      (if entered.sectorBytes - undoOverhead > base.length then
        headAlign base.length + undoOverhead
      else entered.sectorBytes) = bytes
    have hfacts : n + undoOverhead ≤ bytes ∧ bytes % 8 = 0 ∧
        bytes ≤ entered.sectorBytes ∧ 0 < n ∧ n ≤ base.length ∧
        (n = base.length ∨ bytes = entered.sectorBytes ∧ n + undoOverhead = bytes) := by
      simp only [hsector, undoOverhead, headAlign] at hpad hn hbytes ⊢
      split_ifs at hbytes <;> omega
    obtain ⟨hroom, hbytes8, hle, hpos, hlength, hcase⟩ := hfacts
    have hminimum : fifoTailSize ≤ bytes := by
      simp only [fifoTailSize, undoOverhead] at hroom ⊢
      omega
    obtain ⟨laid, hsome, hlaidNext, hlay⟩ :=
      henter.layRecord hnext hspace' (.undo ⟨zoneOff, n, base.take n⟩) hminimum hbytes8 hle
    refine ⟨laid, n, _, ?_, hlay, ?_, ?_, ?_⟩
    · simp only [if_neg hpad, hn, hbytes, hsome, Option.map_some]
    · intro rest hrest
      exact .piece n bytes entered.undoSeqno hpos hlength hroom hrest
    · simp only [undoBudget, hammerUndoAlign, hlaidNext, ← hmod]
      simp only [hsector, undoOverhead] at hroom hle hcase
      omega
    · split_ifs <;> omega

theorem layUndos
    (hspace : spanSize heads + undoBudget writer.nextOffset base.length +
      hammerBufsize + hammerUndoAlign ≤ size)
    (hfuel : 2 * base.length + (if writer.nextOffset % 512 = 0 then 0 else 1) < fuel) :
    ∃ writer' more, writer.layUndos fuel zoneOff base = some writer' ∧
      writer'.Laid size position (heads ++ more) ∧
      spanSize more ≤ undoBudget writer.nextOffset base.length ∧ UndoPieces zoneOff base more := by
  induction fuel generalizing writer heads base zoneOff with
  | zero => exact absurd hfuel (Nat.not_lt_zero _)
  | succ fuel ih =>
    unfold UndoWriter.layUndos
    by_cases hbase : base.length = 0
    · rw [if_pos hbase]
      have hnil := length_eq_zero_iff.mp hbase
      subst hnil
      exact ⟨writer, [], rfl, by simpa using hlaid, by simp,
        .done zoneOff⟩
    · obtain ⟨next, n, head, hstep, hnext, hpiece, hbudget, hmeasure⟩ :=
        hlaid.layUndo zoneOff (by omega) hbase
      have hlength : (base.drop n).length = base.length - n := length_drop
      have hspace' : spanSize (heads ++ [head]) + undoBudget next.nextOffset (base.drop n).length +
              hammerBufsize + hammerUndoAlign ≤ size := by
        rw [hlength, spanSize_append, spanSize_cons, spanSize_nil]
        omega
      obtain ⟨writer', more, hlay, hlaid', hspan, hpieces⟩ := ih hnext hspace' (by omega)
      rw [if_neg hbase]
      simp only [hstep]
      refine ⟨writer', head :: more, hlay, by simpa using hlaid', ?_,
        hpiece more hpieces⟩
      rw [hlength] at hspan
      rw [spanSize_cons]
      omega

theorem layRedos_record (fuel : ℕ)
    (hspace : spanSize heads + hammerBufsize + hammerUndoAlign ≤ size)
    (hsector : ¬writer.enter.sectorBytes ≤ redoOverhead) :
    ∃ writer' seqno, UndoWriter.layRedos objid localization flags (fuel + 1) writer
        fileOff none len = some writer' ∧ writer'.Laid size position
        (heads ++ [⟨redoOverhead, seqno,
          .redo ⟨objid, fileOff, len, flags, localization, []⟩⟩]) := by
  have hnext := hlaid.enter_nextOffset
  have henter := hlaid.enter (by omega)
  obtain ⟨writer', hsome, -, hlay⟩ :=
    henter.layRecord hnext (by omega)
      (.redo ⟨objid, fileOff, len, flags, localization, []⟩)
      (by decide : fifoTailSize ≤ redoOverhead)
      (by decide : redoOverhead % 8 = 0) (by omega)
  refine ⟨writer', _, ?_, hlay⟩
  simp only [UndoWriter.layRedos, if_neg hsector, hsome]

/-- A REDO without payload is one record, behind a PAD if the sector has no
room for it. -/
theorem layRedos (objid : ℤ) (localization : ℕ) (flags : RedoFlags) (fileOff len : ℕ)
    (hspace : spanSize heads + hammerBufsize + 2 * hammerUndoAlign ≤ size) :
    ∃ writer' more, UndoWriter.layRedos objid localization flags 2 writer
        fileOff none len = some writer' ∧ writer'.Laid size position (heads ++ more) ∧
      0 < spanSize more ∧ spanSize more ≤ 2 * redoOverhead ∧
      ∀ head ∈ more, ∀ undo, head.any ≠ .undo undo := by
  by_cases hpad : writer.enter.sectorBytes ≤ redoOverhead
  · have hnext := hlaid.enter_nextOffset
    have henter := hlaid.enter (by omega)
    have hne : writer.enter.nextOffset % hammerUndoAlign ≠ 0 := by
      simp only [UndoWriter.sectorBytes, hammerUndoAlign, redoOverhead] at hpad ⊢
      omega
    obtain ⟨padded, hsome, hpadNext, hpadded⟩ := henter.layPad hnext (by omega) hne
    have hsector : ¬padded.enter.sectorBytes ≤ redoOverhead := by
      have hmod := hpadded.enter_nextOffset_mod
      simp only [UndoWriter.sectorBytes, hammerUndoAlign, redoOverhead] at hpadNext ⊢
      omega
    have hspace' : spanSize (heads ++ [⟨writer.enter.sectorBytes, 0, .pad⟩]) +
          hammerBufsize + hammerUndoAlign ≤ size := by
      simp only [spanSize_append, spanSize_cons, spanSize_nil,
        redoOverhead, hammerUndoAlign] at hpad hspace ⊢
      omega
    obtain ⟨writer', seqno, hlay, hlaid'⟩ := hpadded.layRedos_record 0 hspace' hsector
    refine ⟨writer', [⟨writer.enter.sectorBytes, 0, .pad⟩, ⟨redoOverhead, seqno,
        .redo ⟨objid, fileOff, len, flags, localization, []⟩⟩],
      ?_, by simpa using hlaid', ?_, ?_, by simp⟩
    · unfold UndoWriter.layRedos
      simp only [if_pos hpad, hsome, hlay]
    · simp [redoOverhead]
    · simp only [spanSize_cons, spanSize_nil]
      omega
  · obtain ⟨writer', seqno, hlay, hlaid'⟩ := hlaid.layRedos_record 1 (by omega) hpad
    refine ⟨writer', _, hlay, hlaid', ?_, ?_, by simp⟩
    · simp [redoOverhead]
    · simp [redoOverhead]

end

end UndoWriter.Laid

end DragonFly.Hammer
