import DragonFly.BitRange

/-!
# The radix tree bitmap allocator

The tree lives in one array of records.  A node of level `k` covers `radix k`
blocks and occupies `skip k + 1` records: its own and those of its sixteen
children of level `k - 1`, one after the other.  Leaves are level zero.

Block numbers and counts are natural numbers and the fields of a record are
integers: with at most `blistMaxblks` blocks nothing leaves the range of a
`swblk_t`.  The two members of the record's union are two fields, since a
record is used either as a leaf or as a meta node.  `none` is a panic, and a
block number `none` stands for `SWAPBLK_NONE`.
-/

namespace DragonFly.Kern

open BitRange

def blistBmapRadix : ℕ := 32
def blistMetaRadix : ℕ := 16
def blistMaxAlloc : ℕ := 32
def blistMaxblks : ℕ := 0x40000000 / (blistBmapRadix / blistMetaRadix)

structure Blmeta where
  bmuAvail : ℤ
  bmuBitmap : BitVec 32
  bmBighint : ℤ
  deriving DecidableEq

abbrev Memory := ℕ → Blmeta

def Memory.modify (root : Memory) (scan : ℕ) (f : Blmeta → Blmeta) : Memory :=
  Function.update root scan (f (root scan))

def radix (level : ℕ) : ℕ :=
  blistBmapRadix * blistMetaRadix ^ level

/-- The `skip` argument passed for a node: the records below it. -/
def skip : ℕ → ℕ
  | 0 => 0
  | level + 1 => (skip level + 1) * blistMetaRadix

/-- `next_skip` of the parent of a node: the records of a node. -/
def nextSkip (level : ℕ) : ℕ :=
  skip level + 1

/-! ## Allocation -/

/-- The loop finding the lowest set bit, with `j = 2 ^ exponent / 2`. -/
def lowestBit : ℕ → BitVec 32 → BitVec 32 → ℕ → ℕ
  | 0, _, _, r => r
  | exponent + 1, mask, orig, r =>
    let j := 2 ^ exponent
    let orig' := if orig &&& mask = 0 then orig >>> j else orig
    let r' := if orig &&& mask = 0 then r + j else r
    lowestBit exponent (mask >>> (j / 2)) orig' r'

/-- The loop looking for a run of set bits under a moving mask; `left` bounds
the positions still to be tried. -/
def findRun (orig : BitVec 32) : ℕ → BitVec 32 → ℕ → Option (ℕ × BitVec 32)
  | 0, _, _ => none
  | left + 1, mask, j =>
    if orig &&& mask = mask then some (j, mask)
    else findRun orig left (mask <<< 1) (j + 1)

def blstLeafAlloc (root : Memory) (scan blk count : ℕ) : Memory × Option ℕ :=
  let orig := (root scan).bmuBitmap
  if orig = 0 then
    (root.modify scan fun node => { node with bmBighint := 0 }, none)
  else if count = 1 then
    let r := lowestBit 5 (BitVec.allOnes 32 >>> (blistBmapRadix / 2)) orig 0
    (root.modify scan fun node =>
      { node with bmuBitmap := node.bmuBitmap &&& ~~~(1#32 <<< r) },
      some (blk + r))
  else
    let n := blistBmapRadix - count
    let found :=
      if count ≤ blistBmapRadix then
        findRun orig (n + 1) (BitVec.allOnes 32 >>> n) 0
      else none
    match found with
    | some (j, mask) =>
      (root.modify scan fun node =>
        { node with bmuBitmap := node.bmuBitmap &&& ~~~mask },
        some (blk + j))
    | none =>
      (root.modify scan fun node =>
        { node with bmBighint := count - 1 }, none)

/-- Set the records of the children up to the terminator; `left` children
remain. -/
def initSublevel (set : Blmeta → Blmeta) (stride : ℕ) : ℕ → Memory → ℕ → Memory
  | 0, root, _ => root
  | left + 1, root, i =>
    if (root i).bmBighint = -1 then root
    else initSublevel set stride left (root.modify i set) (i + stride)

def setFree (level : ℕ) (node : Blmeta) : Blmeta :=
  if level = 0 then
    { node with
      bmuBitmap := BitVec.allOnes 32
      bmBighint := blistBmapRadix }
  else
    { node with bmBighint := radix level, bmuAvail := radix level }

def setAllocated (level : ℕ) (node : Blmeta) : Blmeta :=
  if level = 0 then
    { node with bmBighint := 0, bmuBitmap := 0 }
  else
    { node with bmBighint := 0, bmuAvail := 0 }

/-- The loop of `blst_meta_alloc` over the children of level `level`, which
`alloc` allocates from. -/
def allocScan (alloc : Memory → ℕ → ℕ → Option (Memory × Option ℕ))
    (level : ℕ) (blkat : ℤ) (count : ℕ) : ℕ → Memory → ℕ → ℕ → Option (Memory × Option ℕ)
  | 0, root, _, _ => some (root, none)
  | left + 1, root, i, blk =>
    if (count : ℤ) ≤ (root i).bmBighint ∧
        (blk + radix level : ℤ) > blkat then
      match alloc root i blk with
      | none => none
      | some (root, some r) => some (root, some r)
      | some (root, none) =>
        allocScan alloc level blkat count left root (i + nextSkip level) (blk + radix level)
    else if (root i).bmBighint = -1 then
      some (root, none)
    else if count > radix level then
      none
    else
      allocScan alloc level blkat count left root (i + nextSkip level) (blk + radix level)

def blstMetaAlloc (alloc : Memory → ℕ → ℕ → Option (Memory × Option ℕ))
    (level : ℕ) (root : Memory) (scan : ℕ) (blkat : ℤ) (blk count : ℕ) :
    Option (Memory × Option ℕ) :=
  if (root scan).bmuAvail = 0 then
    some (root.modify scan fun node => { node with bmBighint := 0 }, none)
  else
    let root :=
      if (root scan).bmuAvail = radix (level + 1) then
        initSublevel (setFree level) (nextSkip level) blistMetaRadix
          (root.modify scan fun node =>
            { node with bmBighint := radix (level + 1) }) (scan + 1)
      else root
    match allocScan alloc level blkat count blistMetaRadix root
        (scan + 1) blk with
    | none => none
    | some (root, some r) =>
      some (root.modify scan fun node =>
        let avail := node.bmuAvail - count
        { node with
          bmuAvail := avail
          bmBighint :=
            if node.bmBighint > avail then avail else node.bmBighint },
        some r)
    | some (root, none) =>
      some (root.modify scan fun node =>
        if (blk : ℤ) ≥ blkat ∧ node.bmBighint ≥ count then
          { node with bmBighint := count - 1 }
        else node, none)

def blstAlloc (blkat : ℤ) (count : ℕ) : ℕ → Memory → ℕ → ℕ → Option (Memory × Option ℕ)
  | 0, root, scan, blk => some (blstLeafAlloc root scan blk count)
  | level + 1, root, scan, blk =>
    blstMetaAlloc (blstAlloc blkat count level) level root scan blkat blk count

/-! ## Freeing -/

/-- A shift by the whole width of a word is undefined. -/
def blstLeafFree (root : Memory) (scan blk count : ℕ) : Option Memory :=
  let n := blk % blistBmapRadix
  let mask := rangeMask 32 n count
  if blistBmapRadix - count - n = blistBmapRadix then none
  else if (root scan).bmuBitmap &&& mask ≠ 0 then none
  else
    some (root.modify scan fun node =>
      { node with
        bmuBitmap := node.bmuBitmap ||| mask
        bmBighint := blistBmapRadix })

/-- The loop of `blst_meta_free` over the children. -/
def freeScan (free : Memory → ℕ → ℕ → ℕ → ℕ → Option Memory) (level scan : ℕ) :
    ℕ → Memory → ℕ → ℕ → ℕ → ℕ → Option Memory
  | 0, root, _, _, _, _ => some root
  | left + 1, root, i, blk, freeBlk, count =>
    if blk < freeBlk + count then
      let v := min (blk + radix level - freeBlk) count
      if (root scan).bmBighint = -1 then none
      else
        match free root i freeBlk v blk with
        | none => none
        | some root =>
          let root := root.modify scan fun node =>
            if node.bmBighint < (root i).bmBighint then
              { node with bmBighint := (root i).bmBighint }
            else node
          freeScan free level scan left root (i + nextSkip level)
            (blk + radix level) (freeBlk + v) (count - v)
    else some root

def blstMetaFree (free : Memory → ℕ → ℕ → ℕ → ℕ → Option Memory)
    (level : ℕ) (root : Memory) (scan freeBlk count blk : ℕ) : Option Memory :=
  let root :=
    if (root scan).bmuAvail = 0 then
      let root := root.modify scan fun node =>
        { node with bmuAvail := count, bmBighint := count }
      if count ≠ radix (level + 1) then
        initSublevel (setAllocated level) (nextSkip level) blistMetaRadix root (scan + 1)
      else root
    else
      root.modify scan fun node =>
        { node with bmuAvail := node.bmuAvail + count }
  if (root scan).bmuAvail = radix (level + 1) then
    some (root.modify scan fun node =>
      { node with bmBighint := radix (level + 1) })
  else if (root scan).bmuAvail > radix (level + 1) then
    none
  else
    let j := (freeBlk - blk) / radix level
    freeScan free level scan (blistMetaRadix - j) root
      (scan + (j * nextSkip level + 1)) (blk + j * radix level)
      freeBlk count

/-- Arguments as in the source: the node, the range, and the first block of the
node. -/
def blstFree : ℕ → Memory → ℕ → ℕ → ℕ → ℕ → Option Memory
  | 0, root, scan, freeBlk, count, _ =>
    blstLeafFree root scan freeBlk count
  | level + 1, root, scan, freeBlk, count, blk =>
    blstMetaFree (blstFree level) level root scan freeBlk count blk

/-! ## Filling -/

def blstLeafFill (root : Memory) (scan blk count : ℕ) : Option (Memory × ℕ) :=
  let n := blk % blistBmapRadix
  let mask := rangeMask 32 n count
  let nblks := countBits 32 ((root scan).bmuBitmap &&& mask)
  if blistBmapRadix - count - n = blistBmapRadix then none
  else
    some (root.modify scan fun node =>
      { node with bmuBitmap := node.bmuBitmap &&& ~~~mask }, nblks)

/-- The loop of `blst_meta_fill` over the children. -/
def fillScan (fill : Memory → ℕ → ℕ → ℕ → ℕ → Option (Memory × ℕ)) (level scan : ℕ) :
    ℕ → Memory → ℕ → ℕ → ℕ → ℕ → ℕ → Option (Memory × ℕ)
  | 0, root, _, _, _, _, nblks => some (root, nblks)
  | left + 1, root, i, blk, fillBlk, count, nblks =>
    if blk < fillBlk + count then
      let v := min (blk + radix level - fillBlk) count
      if (root scan).bmBighint = -1 then none
      else
        match fill root i fillBlk v blk with
        | none => none
        | some (root, n) =>
          fillScan fill level scan left root (i + nextSkip level)
            (blk + radix level) (fillBlk + v) (count - v) (nblks + n)
    else some (root, nblks)

def blstMetaFill (fill : Memory → ℕ → ℕ → ℕ → ℕ → Option (Memory × ℕ))
    (level : ℕ) (root : Memory) (scan fillBlk count blk : ℕ) : Option (Memory × ℕ) :=
  if count = radix (level + 1) ∨ (root scan).bmuAvail = 0 then
    some (root.modify scan fun node =>
      { node with bmuAvail := 0, bmBighint := count },
      (root scan).bmuAvail.toNat)
  else
    let root :=
      if (root scan).bmuAvail = radix (level + 1) then
        initSublevel (setFree level) (nextSkip level) blistMetaRadix root (scan + 1)
      else root
    if count > radix level then
      none
    else
      let j := (fillBlk - blk) / radix level
      match fillScan fill level scan (blistMetaRadix - j) root
          (scan + (j * nextSkip level + 1)) (blk + j * radix level)
          fillBlk count 0 with
      | none => none
      | some (root, nblks) =>
        some (root.modify scan fun node =>
          { node with bmuAvail := node.bmuAvail - nblks }, nblks)

def blstFill : ℕ → Memory → ℕ → ℕ → ℕ → ℕ → Option (Memory × ℕ)
  | 0, root, scan, fillBlk, count, _ =>
    blstLeafFill root scan fillBlk count
  | level + 1, root, scan, fillBlk, count, blk =>
    blstMetaFill (blstFill level) level root scan fillBlk count blk

/-! ## Creation -/

/-- The loop of `blst_radix_init` over the children; it returns the value of
`memindex` and of `i` at its end. -/
def initScan (init : Memory → ℕ → ℕ → Memory × ℕ) (level scan : ℕ) :
    ℕ → Memory → ℕ → ℕ → ℕ → Memory × ℕ × ℕ
  | 0, root, i, _, memindex => (root, memindex, i)
  | left + 1, root, i, count, memindex =>
    if count ≥ radix level then
      let (root, index) := init root (scan + i) (radix level)
      initScan init level scan left root (i + nextSkip level) (count - radix level) (i + index)
    else if count > 0 then
      let (root, index) := init root (scan + i) count
      initScan init level scan left root (i + nextSkip level) 0 (i + index)
    else
      (root.modify (scan + i) fun node => { node with bmBighint := -1 }, memindex, i)

/-- `blst_radix_init` on a meta node whose children `init` initializes. -/
def blstMetaInit (init : Memory → ℕ → ℕ → Memory × ℕ) (level : ℕ)
    (root : Memory) (scan count : ℕ) : Memory × ℕ :=
  let root := root.modify scan fun node =>
    { node with bmBighint := 0, bmuAvail := 0 }
  let result := initScan init level scan blistMetaRadix root 1 count 0
  let memindex := result.2.1
  let i := result.2.2
  (result.1, if memindex < i then i else memindex)

/-- Initialize a node covering `count` blocks, all allocated, and return the
number of records needed below it. -/
def blstRadixInit : ℕ → Memory → ℕ → ℕ → Memory × ℕ
  | 0, root, scan, _ =>
    (root.modify scan fun node =>
      { node with bmBighint := 0, bmuBitmap := 0 }, 0)
  | level + 1, root, scan, count =>
    blstMetaInit (blstRadixInit level) level root scan count

structure Blist where
  blBlocks : ℕ
  level : ℕ
  blFree : ℤ
  blRoot : Memory
  blRootblks : ℕ

variable (bl : Blist)

/-- The loop of `blist_create`: the first level that covers all blocks. -/
def coverLevel (blocks : ℕ) : ℕ → ℕ → ℕ
  | 0, level => level
  | fuel + 1, level =>
    if radix level < blocks then coverLevel blocks fuel (level + 1)
    else level

/-- The records of a fresh list are those of `kmalloc`, whatever they hold. -/
def blistCreate (memory : Memory) (blocks : ℕ) : Blist :=
  let level := coverLevel blocks blocks 0
  let init := blstRadixInit level memory 0 blocks
  { blBlocks := blocks
    level := level
    blFree := 0
    blRoot := init.1
    blRootblks := 1 + init.2 }

def blistAllocat (count : ℕ) (blkat : ℤ) : Option (Blist × Option ℕ) :=
  match blstAlloc blkat count bl.level bl.blRoot 0 0 with
  | none => none
  | some (root, some blk) =>
    some ({ bl with blRoot := root, blFree := bl.blFree - count }, some blk)
  | some (root, none) => some ({ bl with blRoot := root }, none)

def blistAlloc (count : ℕ) : Option (Blist × Option ℕ) :=
  blistAllocat bl count 0

def blistFree (blkno count : ℕ) : Option Blist :=
  match blstFree bl.level bl.blRoot 0 blkno count 0 with
  | none => none
  | some root =>
    some { bl with blRoot := root, blFree := bl.blFree + count }

def blistFill (blkno count : ℕ) : Option (Blist × ℕ) :=
  match blstFill bl.level bl.blRoot 0 blkno count 0 with
  | none => none
  | some (root, filled) =>
    some ({ bl with blRoot := root, blFree := bl.blFree - filled }, filled)

end DragonFly.Kern
