import DragonFly.BlistInvariant

/-!
# The aligned radix tree allocator

The tree has the layout of a blist: a node of level `k` covers `radix k` blocks
and child `j` of the node at `scan` stands at `scan + 1 + j * nextSkip`.  A meta
node has two bits for each child: 00 is all-allocated, 11 all-free and 01 in
between; the records of a child that is not in between hold nothing of use.

Block numbers and counts are natural numbers below `2 ^ 32`; the two loops that
depend on the width of a word wrap explicitly.  `none` is a panic, an undefined
shift, a store outside of the records or a loop that does not end, and a block
number `none` stands for `ALIST_BLOCK_NONE`.
-/

namespace DragonFly.Alst

open BitRange
open Kern (radix lowestBit child)

def alistBmapRadix : ℕ := 32
def alistMetaRadix : ℕ := 16

/-- The hint of a record that ends the children of a node. -/
def alistTerminator : ℕ := 2 ^ 32 - 1

structure Almeta where
  bmBitmap : BitVec 32
  bmBighint : ℕ
  deriving DecidableEq

abbrev Memory := ℕ → Almeta

section

variable (root : Memory)

def Memory.modify (scan : ℕ) (f : Almeta → Almeta) : Memory :=
  Function.update root scan (f (root scan))

/-- The two bits of child `j`, and the lower one of them. -/
def fieldMask (j : ℕ) : BitVec 32 :=
  3#32 <<< (2 * j)

def partMask (j : ℕ) : BitVec 32 :=
  1#32 <<< (2 * j)

/-! ## Allocation -/

/-- The loop of `alst_leaf_alloc` over the aligned places of a leaf; `fuel`
bounds its passes. -/
def leafRun (orig : BitVec 32) (count : ℕ) : ℕ → BitVec 32 → ℕ → Option (ℕ × BitVec 32)
  | 0, _, _ => none
  | fuel + 1, mask, j =>
    if j ≤ alistBmapRadix - count then
      if orig &&& mask = mask then some (j, mask)
      else leafRun orig count fuel (mask <<< count) (j + count)
    else none

/-- The bitmap of a leaf without the blocks before `start`. -/
def leafOrig (bitmap : BitVec 32) (blk start : ℕ) : BitVec 32 :=
  if start > blk ∧ start < blk + alistBmapRadix then
    bitmap &&& ~~~((1#32 <<< (start - blk)) - 1)
  else bitmap

/-- Set the hint of a leaf in which nothing was found. -/
def leafFailed (scan blk start hint : ℕ) : Memory :=
  if start % alistBmapRadix ≤ blk then
    root.modify scan fun node => { node with bmBighint := hint }
  else root

def alstLeafAlloc (scan blk start count : ℕ) : Memory × Option ℕ :=
  if start ≥ blk + alistBmapRadix then (root, none)
  else
    let orig := leafOrig (root scan).bmBitmap blk start
    if orig = 0 then (leafFailed root scan blk start 0, none)
    else if count = 1 then
      let r := lowestBit 5 (BitVec.allOnes 32 >>> (alistBmapRadix / 2)) orig 0
      (root.modify scan fun node =>
        { node with bmBitmap := node.bmBitmap &&& ~~~(1#32 <<< r) },
        some (blk + r))
    else
      match leafRun orig count alistBmapRadix
          (BitVec.allOnes 32 >>> (alistBmapRadix - count)) 0 with
      | some (j, mask) =>
        (root.modify scan fun node =>
          { node with bmBitmap := node.bmBitmap &&& ~~~mask },
          some (blk + j))
      | none => (leafFailed root scan blk start (count - 1), none)

/-- The loop of `alst_meta_alloc` over the bits of the node itself, `bits` of
them for one allocation. -/
def metaRun (bitmap : BitVec 32) (blk start radix bits : ℕ) :
    ℕ → BitVec 32 → ℕ → Option (ℕ × BitVec 32)
  | 0, _, _ => none
  | fuel + 1, mask, j =>
    if j < alistMetaRadix then
      if bitmap &&& mask = mask ∧ blk + j * radix ≥ start then
        some (j, mask)
      else metaRun bitmap blk start radix bits fuel (mask <<< bits) (j + bits / 2)
    else none

/-- Set the hint of a meta node in which nothing was found. -/
def metaFailed (scan blk start count : ℕ) : Memory :=
  if (root scan).bmBighint ≥ count ∧ start ≤ blk then
    root.modify scan fun node => { node with bmBighint := count / 2 }
  else root

/-- Initialize child `j` of a node in which it is all-free. -/
def openChild (level scan j : ℕ) : Memory :=
  if (root scan).bmBitmap &&& fieldMask j = fieldMask j then
    root.modify (child level scan j) fun _ =>
      { bmBitmap := BitVec.allOnes 32, bmBighint := radix level }
  else root

/-- Mark child `j` after an allocation from it. -/
def markAllocated (level scan j : ℕ) : Memory :=
  root.modify scan fun node =>
    if (root (child level scan j)).bmBitmap = 0 then
      { node with bmBitmap := node.bmBitmap &&& ~~~fieldMask j }
    else
      { node with
        bmBitmap := (node.bmBitmap &&& ~~~fieldMask j) ||| partMask j }

end

/-- The loop of `alst_meta_alloc` over the children, which `alloc` allocates
from; `left` of them remain, from child `j` on. -/
def allocScan (alloc : Memory → ℕ → ℕ → Memory × Option ℕ) (level scan blk start count : ℕ) :
    ℕ → Memory → ℕ → Memory × Option ℕ
  | 0, root, _ => (root, none)
  | left + 1, root, j =>
    if (root (child level scan j)).bmBighint = alistTerminator then
      (root, none)
    else
      let root := openChild root level scan j
      if (root scan).bmBitmap &&& fieldMask j = 0 then
        allocScan alloc level scan blk start count left root (j + 1)
      else if blk + j * radix level + radix level ≤ start then
        allocScan alloc level scan blk start count left root (j + 1)
      else if count ≤ (root (child level scan j)).bmBighint then
        match alloc root (child level scan j) (blk + j * radix level) with
        | (root, some r) => (markAllocated root level scan j, some r)
        | (root, none) =>
          allocScan alloc level scan blk start count left root (j + 1)
      else allocScan alloc level scan blk start count left root (j + 1)

/-- `alst_meta_alloc` for a node with children of level `level`. -/
def alstMetaAlloc (alloc : Memory → ℕ → ℕ → Memory × Option ℕ)
    (level : ℕ) (root : Memory) (scan blk start count : ℕ) : Memory × Option ℕ :=
  if (root scan).bmBitmap = 0 then
    (root.modify scan fun node => { node with bmBighint := 0 }, none)
  else if count ≥ radix level then
    let bits := count / radix level * 2
    match metaRun (root scan).bmBitmap blk start (radix level) bits
        alistMetaRadix (BitVec.allOnes 32 >>> (alistBmapRadix - bits)) 0 with
    | some (j, mask) =>
      (root.modify scan fun node =>
        { node with bmBitmap := node.bmBitmap &&& ~~~mask },
        some (blk + j * radix level))
    | none => (metaFailed root scan blk start count, none)
  else
    match allocScan alloc level scan blk start count alistMetaRadix root 0 with
    | (root, some r) => (root, some r)
    | (root, none) => (metaFailed root scan blk start count, none)

def alstAlloc (start count : ℕ) : ℕ → Memory → ℕ → ℕ → Memory × Option ℕ
  | 0, root, scan, blk => alstLeafAlloc root scan blk start count
  | level + 1, root, scan, blk =>
    alstMetaAlloc (alstAlloc start count level) level root scan blk start count

/-! ## Freeing -/

/-- A shift by the whole width of a word is undefined. -/
def alstLeafFree (root : Memory) (scan blk count : ℕ) : Option Memory :=
  let n := blk % alistBmapRadix
  let mask := rangeMask 32 n count
  if alistBmapRadix - count - n = alistBmapRadix then none
  else if (root scan).bmBitmap &&& mask ≠ 0 then none
  else
    some (root.modify scan fun node =>
      { bmBitmap := node.bmBitmap ||| mask
        bmBighint := alistBmapRadix })

/-- Initialize child `j` of a node in which it is all-allocated. -/
def closeChild (root : Memory) (level scan j : ℕ) : Memory :=
  if (root scan).bmBitmap &&& fieldMask j = 0 then
    root.modify (child level scan j) fun _ =>
      { bmBitmap := 0, bmBighint := 0 }
  else root

/-- Mark child `j` after blocks of it have been freed. -/
def markFreed (root : Memory) (level scan j : ℕ) : Memory :=
  let below := root (child level scan j)
  root.modify scan fun node =>
    if below.bmBitmap = BitVec.allOnes 32 then
      { bmBitmap := node.bmBitmap ||| fieldMask j
        bmBighint := radix level * alistMetaRadix }
    else
      { bmBitmap := (node.bmBitmap &&& ~~~fieldMask j) ||| partMask j
        bmBighint :=
          if node.bmBighint < below.bmBighint then below.bmBighint
          else node.bmBighint }

/-- The loop of `alst_meta_free` over the children, which `free` frees blocks
of. -/
def freeScan (free : Memory → ℕ → ℕ → ℕ → ℕ → Option Memory) (level scan blk : ℕ) :
    ℕ → Memory → ℕ → ℕ → ℕ → Option Memory
  | 0, root, _, _, _ => some root
  | left + 1, root, j, freeBlk, count =>
    let first := blk + j * radix level
    if first < freeBlk + count then
      let v := min (first + radix level - freeBlk) count
      if (root scan).bmBighint = alistTerminator then none
      else if freeBlk = first ∧ count ≥ radix level then
        if (root scan).bmBitmap &&& fieldMask j ≠ 0 then none
        else
          freeScan free level scan blk left
            (root.modify scan fun node =>
              { bmBitmap := node.bmBitmap ||| fieldMask j
                bmBighint := radix level * alistMetaRadix })
            (j + 1) (freeBlk + v) (count - v)
      else
        match free (closeChild root level scan j) (child level scan j)
            freeBlk v first with
        | none => none
        | some root =>
          freeScan free level scan blk left (markFreed root level scan j) (j + 1) (freeBlk + v)
            (count - v)
    else some root

/-- Arguments as in the source: the node, the range, and the first block of the
node. -/
def alstFree : ℕ → Memory → ℕ → ℕ → ℕ → ℕ → Option Memory
  | 0, root, scan, freeBlk, count, _ => alstLeafFree root scan freeBlk count
  | level + 1, root, scan, freeBlk, count, blk =>
    let j := (freeBlk - blk) / radix level
    freeScan (alstFree level) level scan blk (alistMetaRadix - j) root j freeBlk count

/-! ## Creation -/

/-- The result of `alst_radix_init`: the records that the nodes below the node need. -/
def memindex (count : ℕ) : ℕ → ℕ → ℕ
  | 0, _ => 0
  | level + 1, blk =>
    ∑ j ∈ Finset.range alistMetaRadix,
      (if count > blk + j * radix level then memindex count level (blk + j * radix level) else 0) +
    alistMetaRadix

/-- A store behind the records of the list is outside of their memory. -/
def Memory.store (records : ℕ) (root : Memory) (scan : ℕ) (node : Almeta) : Option Memory :=
  if scan < records then some (root.modify scan fun _ => node) else none

/-- The loop of `alst_radix_init` over the children, which `init`
initializes. -/
def initScan (records : ℕ) (init : Memory → ℕ → ℕ → Option Memory) (level scan blk count : ℕ) :
    ℕ → Memory → ℕ → Option Memory
  | 0, root, _ => some root
  | left + 1, root, j =>
    (if count > blk + j * radix level then init root (child level scan j) (blk + j * radix level)
    else root.store records (child level scan j) { bmBitmap := 0, bmBighint := alistTerminator }
    ).bind fun root => initScan records init level scan blk count left root (j + 1)

/-- The stores of `alst_radix_init` into an array of `records` records. -/
def alstRadixInit (records count : ℕ) : ℕ → Memory → ℕ → ℕ → Option Memory
  | 0, root, scan, _ => root.store records scan { bmBitmap := 0, bmBighint := 0 }
  | level + 1, root, scan, blk =>
    (root.store records scan { bmBitmap := 0, bmBighint := 0 }).bind fun root =>
      initScan records (alstRadixInit records count level) level scan blk count alistMetaRadix
        root 0

structure Alist where
  blBlocks : ℕ
  level : ℕ
  blFree : ℤ
  blRoot : Memory

variable (bl : Alist)

def Alist.blRadix : ℕ := radix bl.level

/-- The loop of `alist_create`; the radix wraps to zero at level 7. -/
def createLevel (blocks : ℕ) : ℕ → ℕ → Option ℕ
  | 0, _ => none
  | fuel + 1, level =>
    if radix level % 2 ^ 32 < blocks then
      createLevel blocks fuel (level + 1)
    else some level

/-- A list over the `nrecords` records of the caller, whatever they hold. -/
def alistInit (memory : Memory) (blocks nrecords : ℕ) : Option Alist :=
  match createLevel blocks (blocks + 1) 0 with
  | none => none
  | some level =>
    if 1 + memindex blocks level 0 ≤ nrecords then
      (alstRadixInit nrecords blocks level memory 0 0).map fun root =>
        { blBlocks := blocks, level := level, blFree := 0, blRoot := root }
    else none

/-- The records are those of `kmalloc`, `bl_rootblks` of them. -/
def alistCreate (memory : Memory) (blocks : ℕ) : Option Alist :=
  match createLevel blocks (blocks + 1) 0 with
  | none => none
  | some level => alistInit memory blocks (1 + memindex blocks level 0)

/-! ## Operations -/

def alistFree (blkno count : ℕ) : Option Alist :=
  if blkno + count ≤ bl.blBlocks then
    match alstFree bl.level bl.blRoot 0 blkno count 0 with
    | none => none
    | some root =>
      some { bl with blRoot := root, blFree := bl.blFree + count }
  else none

def alistAllocPow2 (start count : ℕ) : Alist × Option ℕ :=
  if count < bl.blRadix then
    match alstAlloc start count bl.level bl.blRoot 0 0 with
    | (root, some blk) =>
      ({ bl with blRoot := root, blFree := bl.blFree - count }, some blk)
    | (root, none) => ({ bl with blRoot := root }, none)
  else (bl, none)

def notPow2 (count : ℕ) : Bool :=
  let word := BitVec.ofNat 32 count
  (word ||| (word - 1#32)) ≠ (word <<< 1) - 1#32

/-- The loop `while (ncount < count) ncount <<= 1`. -/
def roundUp (count : ℕ) : ℕ → ℕ → Option ℕ
  | 0, _ => none
  | fuel + 1, ncount =>
    if ncount < count then roundUp count fuel (ncount * 2 % 2 ^ 32)
    else some ncount

/-- The call for the rounded count takes the part for powers of two. -/
def alistAlloc (start count : ℕ) : Option (Alist × Option ℕ) :=
  if count = 0 then none
  else if notPow2 count then
    match roundUp count 33 (if count < 256 then 1 else 256) with
    | none => none
    | some ncount =>
      match alistAllocPow2 bl start ncount with
      | (bl, none) => some (bl, none)
      | (bl, some blk) =>
        match alistFree bl (blk + count) (ncount - count) with
        | none => none
        | some bl => some (bl, some blk)
  else some (alistAllocPow2 bl start count)

end DragonFly.Alst
