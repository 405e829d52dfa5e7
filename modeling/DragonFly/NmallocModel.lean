import DragonFly.AlignUp

/-!
# Requests to the libc allocator

How `malloc`, `calloc`, `realloc` and `posix_memalign` of `nmalloc.c` turn a request into
a mapping or into a chunk of a zone.  `size_t` is 64 bits wide and wraps.  The answers
of `mmap` and of the chunk allocator behind `zoneindex` are given as lists, and every
answer may be a failure.
-/

namespace DragonFly.Nmalloc

abbrev SizeT := BitVec 64

def pageSize : SizeT := 4096

def pageMask : SizeT := 4095

def zoneLimit : SizeT := 16384

def nzones : ℤ := 72

def sizeofBigalloc : SizeT := 24

def sizeofPointer : SizeT := 8

/-- The address of `malloc_dummy_pointer`; nothing depends on its value. -/
def zeroLengthPtr : ℕ := 0x601000

inductive Errno
  | einval
  | enomem
  deriving DecidableEq

structure ZoneFit where
  index : ℤ
  bytes : SizeT
  chunking : SizeT
  deriving DecidableEq

def zoneFit (n chunking : SizeT) (base : ℤ) : ZoneFit where
  index := (alignUp n (chunking - 1)).toNat / chunking.toNat + base
  bytes := alignUp n (chunking - 1)
  chunking := chunking

/-- `none` is the panic on an excessive size. -/
def zoneindex (bytes : SizeT) : Option ZoneFit :=
  let n : SizeT := (bytes.setWidth 32).setWidth 64
  if n < 128 then some (zoneFit n 8 (-1))
  else if n < 256 then some (zoneFit n 16 7)
  else if n < 8192 then
    if n < 512 then some (zoneFit n 32 15)
    else if n < 1024 then some (zoneFit n 64 23)
    else if n < 2048 then some (zoneFit n 128 31)
    else if n < 4096 then some (zoneFit n 256 39)
    else some (zoneFit n 512 47)
  else if n < 16384 then some (zoneFit n 1024 55)
  else none

def isPowerOfTwo (x : SizeT) : Bool :=
  (x ||| (x - 1#64)) + 1#64 = x <<< 1

/-- A `struct bigalloc`, with the address at which it is stored. -/
structure Bigalloc where
  self : ℕ
  base : ℕ
  bytes : SizeT

structure Heap where
  bigallocArray : BitVec 10 → List Bigalloc
  /-- The chunks in use, with the `z_ChunkSize` of their zones. -/
  chunks : List (ℕ × SizeT)
  mem : ℕ → BitVec 8

/-- `_bigalloc_hash`, masked with `BIGHMASK`. -/
def bigallocHash (ptr : ℕ) : BitVec 10 :=
  ((BitVec.ofNat 32 ptr).sshiftRight 12 ^^^ (BitVec.ofNat 32 ptr).sshiftRight 22).setWidth 10

namespace Heap

variable (heap : Heap) (ptr : ℕ)

def findBig : Option Bigalloc :=
  (heap.bigallocArray (bigallocHash ptr)).find? fun big => big.base = ptr

def link (big : Bigalloc) : Heap :=
  { heap with
    bigallocArray :=
      Function.update heap.bigallocArray (bigallocHash big.base)
        (big :: heap.bigallocArray (bigallocHash big.base)) }

def unlink : Heap :=
  { heap with
    bigallocArray :=
      Function.update heap.bigallocArray (bigallocHash ptr)
        ((heap.bigallocArray (bigallocHash ptr)).eraseP fun big => big.base = ptr) }

def addChunk (size : SizeT) : Heap :=
  { heap with chunks := (ptr, size) :: heap.chunks }

def removeChunk : Heap :=
  { heap with chunks := heap.chunks.eraseP fun chunk => chunk.1 = ptr }

def bzero (size : SizeT) : Heap :=
  { heap with
    mem := fun a => if ptr ≤ a ∧ a < ptr + size.toNat then 0 else heap.mem a }

def bcopy (src dst : ℕ) (size : SizeT) : Heap :=
  { heap with
    mem := fun a =>
      if dst ≤ a ∧ a < dst + size.toNat then heap.mem (src + (a - dst)) else heap.mem a }

def length : Option ℕ :=
  match heap.findBig ptr with
  | some big => some big.bytes.toNat
  | none =>
    if ptr = zeroLengthPtr then some 0
    else (heap.chunks.lookup ptr).map BitVec.toNat

end Heap

structure State where
  heap : Heap
  /-- `SAFLAG_ZERO` in `g_malloc_flags` -/
  zeroAll : Bool
  mmapAnswers : List (Option ℕ)
  chunkAnswers : List (Option ℕ)

/-- `_vmem_alloc`: a mapping that is not aligned is given up for the next one. -/
def vmemAlloc (size align : SizeT) : List (Option ℕ) → Option ℕ × List (Option ℕ)
  | [] => (none, [])
  | none :: answers => (none, answers)
  | some addr :: answers =>
    -- `mmap` refuses a length of zero
    if size = 0 then (none, answers)
    else if BitVec.ofNat 64 addr &&& (align - 1) ≠ 0 then vmemAlloc size align answers
    else (some addr, answers)

variable (s : State)

/-- The part of `_slaballoc` behind `zoneindex`; `none` is a panic. -/
def zoneAlloc (size : SizeT) (zero : Bool) : Option (Option ℕ × State) :=
  (zoneindex size).bind fun fit =>
    if fit.index < nzones then
      match s.chunkAnswers with
      | [] => some (none, s)
      | none :: answers => some (none, { s with chunkAnswers := answers })
      | some obj :: answers =>
        let heap := s.heap.addChunk obj fit.bytes
        let heap := if zero || s.zeroAll then heap.bzero obj fit.bytes else heap
        some (some obj, { s with heap := heap, chunkAnswers := answers })
    else none

def bigAlloc (size align : SizeT) : Option (Option ℕ × State) :=
  match vmemAlloc size align s.mmapAnswers with
  | (none, answers) => some (none, { s with mmapAnswers := answers })
  | (some chunk, answers) =>
    -- `_slaballoc(sizeof(struct bigalloc), 0)` is below every limit
    (zoneAlloc { s with mmapAnswers := answers } sizeofBigalloc false).map fun
      | (none, s) => (none, s)
      | (some big, s) => (some chunk, { s with heap := s.heap.link ⟨big, chunk, size⟩ })

def slaballoc (size : SizeT) (zero : Bool) : Option (Option ℕ × State) :=
  if size = 0 then some (some zeroLengthPtr, s)
  else if zoneLimit ≤ size ∨ (size &&& pageMask = 0 ∧ pageSize * 2 < size) then
    let size := alignUp size pageMask
    let size := if size &&& 8191 = 0 then size + 4096 else size
    bigAlloc s size pageSize
  else zoneAlloc s size zero

/-- The end of `_slabfree` for a chunk of a zone; `none` is a failed `MASSERT`. -/
def zoneFree (ptr : ℕ) : Option State :=
  (s.heap.chunks.lookup ptr).map fun size =>
    let heap := if s.zeroAll then s.heap.bzero ptr size else s.heap
    { s with heap := heap.removeChunk ptr }

def slabfree (ptr : ℕ) : Option State :=
  if ptr = 0 then some s
  else if ptr = zeroLengthPtr then some s
  else
    match s.heap.findBig ptr with
    | some big => zoneFree { s with heap := s.heap.unlink ptr } big.self
    | none => zoneFree s ptr

def slabrealloc (ptr : ℕ) (size : SizeT) : Option (Option ℕ × State) :=
  if ptr = 0 ∨ ptr = zeroLengthPtr then slaballoc s size false
  else if size = 0 then (slabfree s ptr).map fun s => (some zeroLengthPtr, s)
  else
    match s.heap.findBig ptr with
    | some big =>
      let size := alignUp size pageMask
      if big.bytes = size then some (some ptr, s)
      else
        (slaballoc { s with heap := s.heap.unlink ptr } size false).bind fun
          | (none, s) => some (none, { s with heap := s.heap.link big })
          | (some nptr, s) =>
            let size := if big.bytes < size then big.bytes else size
            (zoneFree { s with heap := s.heap.bcopy ptr nptr size } big.self).map
              fun s => (some nptr, s)
    | none =>
      (s.heap.chunks.lookup ptr).bind fun chunkSize =>
        (if size < zoneLimit then (zoneindex size).map ZoneFit.bytes else some size).bind
          fun rounded =>
            if size < zoneLimit ∧ chunkSize = rounded then some (some ptr, s)
            else
              (slaballoc s rounded false).bind fun
                | (none, s) => some (none, s)
                | (some nptr, s) =>
                  let size := if chunkSize < rounded then chunkSize else rounded
                  (slabfree { s with heap := s.heap.bcopy ptr nptr size } ptr).map
                    fun s => (some nptr, s)

def growAlignment (size : SizeT) : ℕ → SizeT → SizeT
  | 0, alignment => alignment
  | fuel + 1, alignment =>
    if alignment < size then growAlignment size fuel (alignment <<< 1) else alignment

/-- The alignments that `posix_memalign` refuses with `EINVAL`. -/
def alignmentRefused (alignment : SizeT) : Bool :=
  !isPowerOfTwo alignment || alignment < sizeofPointer

def report : Option ℕ × State → Except Errno ℕ × State
  | (none, s) => (.error .enomem, s)
  | (some ptr, s) => (.ok ptr, s)

def posixMemalign (alignment size : SizeT) : Option (Except Errno ℕ × State) :=
  if alignmentRefused alignment then some (.error .einval, s)
  else
    let size := if size ≤ alignment then alignment else alignUp size (alignment - 1)
    if size < pageSize ∧ isPowerOfTwo size then (slaballoc s size false).map report
    else if size < pageSize then
      (zoneindex size).bind fun fit =>
        if alignment ≤ fit.chunking then (slaballoc s fit.bytes false).map report
        else
          let alignment := if 1024 ≤ fit.bytes then 1024 else alignment
          let alignment := if 16384 ≤ fit.bytes then 16384 else alignment
          (slaballoc s (growAlignment fit.bytes 64 alignment) false).map report
    else
      let alignment := if alignment < pageSize then pageSize else alignment
      let size := if size < alignment then alignment else size
      (bigAlloc s (alignUp size pageMask) alignment).map report

inductive Call
  | malloc (size : SizeT)
  | calloc (number size : SizeT)
  | realloc (ptr : ℕ) (size : SizeT)
  | posixMemalign (alignment size : SizeT)

def State.run : Call → Option (Except Errno ℕ × State)
  | .malloc size => (slaballoc s size false).map report
  | .calloc number size => (slaballoc s (number * size) true).map report
  | .realloc ptr size => (slabrealloc s ptr size).map report
  | .posixMemalign alignment size => posixMemalign s alignment size

end DragonFly.Nmalloc
