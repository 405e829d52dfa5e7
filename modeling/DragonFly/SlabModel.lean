import DragonFly.EventSystem

/-!
# The kernel slab allocator

Zones of `ZoneSize` bytes at multiples of `ZoneSize`, each owned by a cpu.  A zone
is named by the number of its place, and a pointer into it by the offset from its
first byte.  The zone lists of a cpu are lists of zones.  The chunk lists are kept
as the code keeps them, with a link in the first word of every chunk.

The owner works on its zones in critical sections, so that a cpu is in at most one
of its own operations at a time, and a `kfree_remote` message waits for the end of
it.  A step is one access to `z_RChunks`, `z_RSignal` or `z_RCount`, together with
what its cpu does to memory no other cpu looks at.  Calls of `kfree` from other cpus
run outside of critical sections: any number of them may be under way.
-/

namespace DragonFly.Slab

open Function

/-! ## Sizes -/

def zoneLimitMax : ℕ := 16 * 1024

def maxZoneSize : ℕ := 128 * 1024

def slabSlide : ℕ := 20

def nzones : ℕ := 72

def pageSize : ℕ := 4096

def sizeofSLZone : ℕ := 96

/-- What is fixed when the kernel is built and started. -/
structure Config where
  zoneSize : ℕ
  invariants : Bool
  zoneRelsThresh : ℕ
  zoneSize_mem : zoneSize = 32 * 1024 ∨ zoneSize = 64 * 1024 ∨ zoneSize = 128 * 1024

def Config.zoneLimit (cfg : Config) : ℕ := min (cfg.zoneSize / 4) zoneLimitMax

/-- The requests that are not passed on to `kmem_slab_alloc` and not answered with
`ZERO_LENGTH_PTR`. -/
def Config.Zoned (cfg : Config) (size : ℕ) : Prop :=
  0 < size ∧ size < cfg.zoneLimit ∧ ¬ (size % pageSize = 0 ∧ 2 * pageSize < size)

instance (cfg : Config) (size : ℕ) : Decidable (cfg.Zoned size) := by
  unfold Config.Zoned
  infer_instance

structure ZoneClass where
  index : ℕ
  bytes : ℕ
  align : ℕ
  deriving DecidableEq

def roundup (n align : ℕ) : ℕ := (n + (align - 1)) / align * align

def powerof2 (n : ℕ) : Prop := (n - 1) &&& n = 0

instance (n : ℕ) : Decidable (powerof2 n) := by
  unfold powerof2
  infer_instance

def zoneRange (n align first : ℕ) : ZoneClass where
  index := roundup n align / align + first
  bytes := roundup n align
  align := align

def zoneindex (n : ℕ) : Option ZoneClass :=
  if n < 128 then some ⟨roundup n 8 / 8 - 1, roundup n 8, 8⟩
  else if n < 256 then some (zoneRange n 16 7)
  else if n < 512 then some (zoneRange n 32 15)
  else if n < 1024 then some (zoneRange n 64 23)
  else if n < 2048 then some (zoneRange n 128 31)
  else if n < 4096 then some (zoneRange n 256 39)
  else if n < 8192 then some (zoneRange n 512 47)
  else if n < 16384 then some (zoneRange n 1024 55)
  else none

def Config.baseOffset (cfg : Config) (k : ZoneClass) : ℕ :=
  let off :=
    if cfg.invariants then sizeofSLZone + 4 * ((cfg.zoneSize / k.bytes + 31) / 32)
    else sizeofSLZone
  if powerof2 k.bytes then roundup off k.bytes else roundup off k.align

/-! ## Zones -/

/-- The chunks of a zone and how far they have been handed out for the first time. -/
structure Layout where
  nMax : ℕ
  basePtr : ℕ
  uIndex : ℕ
  uEndIndex : ℕ
  chunkSize : ℕ
  zoneIndex : ℕ

/-- The header of a zone and the links in its chunks. -/
structure SLZone (C : Type) extends Layout where
  /-- `z_Magic` is `ZALLOC_SLAB_MAGIC`. -/
  magic : Bool
  /-- The entry of the zone's first page in the kernel's page usage array. -/
  kup : Option C
  cpu : C
  nFree : ℤ
  lChunks : Option ℕ
  /-- The chunk whose `c_Next` is `*z_LChunksp`; nothing for `z_LChunks` itself. -/
  lChunksp : Option ℕ
  rChunks : Option ℕ
  rSignal : Bool
  rCount : ℤ
  cNext : ℕ → Option ℕ

namespace SLZone

variable {C : Type}

def init (cfg : Config) (cpu : C) (k : ZoneClass) (junkIndex : ℕ) (cNext : ℕ → Option ℕ) :
    SLZone C :=
  let off := cfg.baseOffset k
  let nMax := (cfg.zoneSize - off) / k.bytes
  { magic := true
    kup := some cpu
    cpu := cpu
    nFree := nMax - 1
    nMax := nMax
    basePtr := off
    uIndex := junkIndex % nMax
    uEndIndex := junkIndex % nMax
    chunkSize := k.bytes
    zoneIndex := k.index
    lChunks := none
    lChunksp := none
    rChunks := none
    rSignal := false
    rCount := 0
    cNext := cNext }

variable (z : SLZone C)

def storeTail (v : Option ℕ) : SLZone C :=
  match z.lChunksp with
  | none => { z with lChunks := v }
  | some a => { z with cNext := update z.cNext a v }

/-- The walk over the chunks that were pulled off `z_RChunks`.  It does not end on a
cyclic list. -/
def countChunks : ℕ → Option ℕ → SLZone C → Option (SLZone C)
  | _, none, z => some z
  | 0, some _, _ => none
  | fuel + 1, some bchunk, z =>
    countChunks fuel (z.cNext bchunk)
      { z with lChunksp := some bchunk, nFree := z.nFree + 1 }

/-- What `clean_zone_rchunks` does once its `atomic_cmpset_ptr` has succeeded. -/
def drain (bchunk : ℕ) : Option (SLZone C) :=
  countChunks z.nMax (some bchunk) ({ z with rChunks := none }.storeTail (some bchunk))

/-- The chunk that `kmalloc` takes off a zone, or the panic on a corrupted zone. -/
def takeChunk (size : ℕ) : Option (ℕ × SLZone C) :=
  match z.lChunks with
  | some chunk =>
    let z' := { z with lChunks := z.cNext chunk }
    some (chunk, if z'.lChunks = none then { z' with lChunksp := none } else z')
  | none =>
    let u := if z.uIndex + 1 ≠ z.nMax then z.uIndex + 1 else 0
    if u = z.uEndIndex then none
    else some (z.basePtr + u * size, { z with uIndex := u })

def freeChunk (chunk : ℕ) : SLZone C :=
  { z with
    cNext := update z.cNext chunk z.lChunks
    lChunks := some chunk
    lChunksp := if z.lChunks = none then some chunk else z.lChunksp
    nFree := z.nFree + 1 }

end SLZone

/-! ## Calls under way -/

/-- Where a `kfree` from another cpu is.  `rsignal` is the value it has read. -/
inductive FreePc where
  | sample
  | retain
  | read (rsignal : Bool)
  | link (rsignal : Bool) (bchunk : Option ℕ)
  | signal
  | drop
  deriving DecidableEq

structure Task where
  chunk : ℕ
  pc : FreePc
  deriving DecidableEq

/-- A chunk between its `kmalloc` and its `kfree`. -/
structure Live (C : Type) where
  cpu : C
  chunk : ℕ
  size : ℕ
  deriving DecidableEq

/-- A place for a zone.  The calls under way and the messages are those that hold a
pointer to it.  `live` and `used` (the chunks handed out since the zone was set up)
are only there to be talked about. -/
structure Slot (C : Type) where
  header : Option (SLZone C)
  tasks : Multiset Task
  messages : Multiset C
  live : Multiset (Live C)
  used : Finset ℕ

inductive Kind where
  | malloc (size : ℕ) (k : ZoneClass)
  | remote (nfree : ℤ)
  | cleanup (i : ℕ)
  deriving DecidableEq

/-- Where the owner is.  `signal` is the store to `z_RSignal`; `read` and `swap` are
`clean_zone_rchunks`. -/
inductive Pc where
  | test
  | signal
  | read
  | swap (bchunk : ℕ)
  | settle
  deriving DecidableEq

inductive Op where
  | scan (i : ℕ)
  | work (kind : Kind) (zone : ℕ) (pc : Pc)
  deriving DecidableEq

structure SLGlobalData where
  zoneAry : ℕ → List ℕ
  freeZones : List ℕ
  junkIndex : ℕ
  op : Option Op
  /-- Calls of `kmalloc` that sleep in `kmem_slab_alloc`. -/
  blocked : Multiset ℕ

structure State (C : Type) where
  slot : ℕ → Slot C
  slgd : C → SLGlobalData
  panicked : Bool

def zoneNext (zone : ℕ) : List ℕ → List ℕ
  | [] => []
  | z :: l => if z = zone then l else zoneNext zone l

namespace SLGlobalData

def setAry (g : SLGlobalData) (i : ℕ) (l : List ℕ) : SLGlobalData :=
  { g with zoneAry := update g.zoneAry i l }

/-- `check_zone_free`, and the same text at the end of `kfree_remote`.  The search
for the zone runs into a null pointer if the zone is not on its list. -/
def checkZoneFree (g : SLGlobalData) (zone : ℕ) {C : Type} (z : SLZone C) :
    Option (SLGlobalData × SLZone C) :=
  let l := g.zoneAry z.zoneIndex
  if z.nFree = z.nMax ∧ (zoneNext zone l ≠ [] ∨ l.head? ≠ some zone) ∧ z.rCount = 0 then
    if zone ∈ l then
      some ({ g.setAry z.zoneIndex (l.erase zone) with freeZones := zone :: g.freeZones },
        { z with magic := false, kup := none })
    else none
  else some (g, z)

end SLGlobalData

namespace State

variable {C : Type} [DecidableEq C]

def initial : State C where
  slot _ := ⟨none, 0, 0, 0, ∅⟩
  slgd _ := ⟨fun _ => [], [], 0, none, 0⟩
  panicked := false

section

variable (s : State C)

def setSlot (zone : ℕ) (σ : Slot C) : State C :=
  { s with slot := update s.slot zone σ }

def setHeader (zone : ℕ) (z : SLZone C) : State C :=
  s.setSlot zone { s.slot zone with header := some z }

def setSlgd (c : C) (g : SLGlobalData) : State C :=
  { s with slgd := update s.slgd c g }

def setOp (c : C) (op : Option Op) : State C :=
  s.setSlgd c { s.slgd c with op := op }

def fail : State C := { s with panicked := true }

/-! ## The owner -/

def finishMalloc (c : C) (zone : ℕ) (z : SLZone C) (size bytes : ℕ) : State C :=
  match z.takeChunk bytes with
  | none => s.fail
  | some (chunk, z') =>
    (s.setSlot zone
      { s.slot zone with
        header := some z'
        live := ⟨c, chunk, size⟩ ::ₘ (s.slot zone).live
        used := insert chunk (s.slot zone).used }).setOp c none

end

/-- A zone of its own for a request, with the first chunk handed out. -/
def newZone (cfg : Config) (s : State C) (c : C) (zone size : ℕ) (k : ZoneClass)
    (cNext : ℕ → Option ℕ) : State C :=
  let g := s.slgd c
  let z := SLZone.init cfg c k g.junkIndex cNext
  let chunk := z.basePtr + z.uIndex * k.bytes
  (s.setSlot zone
    { s.slot zone with
      header := some z
      live := ⟨c, chunk, size⟩ ::ₘ (s.slot zone).live
      used := {chunk} }).setSlgd c
    { g.setAry k.index (zone :: g.zoneAry k.index) with
      junkIndex := (g.junkIndex + slabSlide) % maxZoneSize }

def kmalloc (cfg : Config) (s : State C) (c : C) (size : ℕ) : State C :=
  let g := s.slgd c
  match zoneindex size with
  | none => s.fail
  | some k =>
    if nzones ≤ k.index then s.fail
    else
      match g.zoneAry k.index with
      | zone :: _ =>
        match (s.slot zone).header with
        | none => s.fail
        | some z =>
          let z := { z with nFree := z.nFree - 1 }
          if 0 < z.nFree then s.finishMalloc c zone z size k.bytes
          else if z.nFree = 0 then
            (s.setHeader zone z).setOp c (some (.work (.malloc size k) zone .test))
          else s.fail
      | [] =>
        match g.freeZones with
        | zone :: rest =>
          match (s.slot zone).header with
          | none => s.fail
          | some z =>
            newZone cfg (s.setSlgd c { g with freeZones := rest }) c zone size k z.cNext
        | [] => s.setSlgd c { g with blocked := size ::ₘ g.blocked }

/-- `kmem_slab_alloc` has found memory for a zone. -/
def slabAllocated (cfg : Config) (s : State C) (c : C) (size zone : ℕ) : State C :=
  let g := s.slgd c
  match zoneindex size with
  | none => s.fail
  | some k =>
    newZone cfg (s.setSlgd c { g with blocked := g.blocked.erase size }) c zone size k fun _ => none

variable (s : State C) (c : C)

/-- `kfree` on the cpu that owns the zone.  The chunk is no longer live. -/
def kfreeLocal (zone : ℕ) (z : SLZone C) (l : Live C) : State C :=
  let g := s.slgd c
  let g :=
    if z.nFree = 0 then g.setAry z.zoneIndex (zone :: g.zoneAry z.zoneIndex) else g
  match g.checkZoneFree zone (z.freeChunk l.chunk) with
  | none => s.fail
  | some (g, z) =>
    (s.setSlot zone
      { s.slot zone with
        header := some z
        live := (s.slot zone).live.erase l }).setSlgd c g

def kfree (zone : ℕ) (l : Live C) : State C :=
  match (s.slot zone).header with
  | none => s.fail
  | some z =>
    if z.kup = none ∨ z.magic = false then s.fail
    else if z.cpu = c then s.kfreeLocal c zone z l
    else
      s.setSlot zone
        { s.slot zone with
          live := (s.slot zone).live.erase l
          tasks := ⟨l.chunk, .sample⟩ ::ₘ (s.slot zone).tasks }

def kfreeRemote (zone : ℕ) : State C :=
  match (s.slot zone).header with
  | none => s.fail
  | some z =>
    if z.kup = some c ∧ 0 < z.rCount ∧ z.magic = true ∧ z.cpu = c then
      (s.setSlot zone
        { s.slot zone with
          header := some { z with rCount := z.rCount - 1 }
          messages := (s.slot zone).messages.erase c }).setOp c
        (some (.work (.remote z.nFree) zone .test))
    else s.fail

/-- The end of an operation, after `clean_zone_rchunks`. -/
def settle (kind : Kind) (zone : ℕ) (z : SLZone C) : State C :=
  let g := s.slgd c
  match kind with
  | .malloc size k =>
    if z.nFree = 0 then
      (s.setSlgd c (g.setAry k.index (zoneNext zone (g.zoneAry k.index)))).finishMalloc c
        zone z size k.bytes
    else s.finishMalloc c zone { z with rSignal := false } size k.bytes
  | .remote nfree =>
    let g :=
      if z.nFree ≠ 0 ∧ nfree = 0 then
        g.setAry z.zoneIndex (zone :: g.zoneAry z.zoneIndex)
      else g
    match g.checkZoneFree zone z with
    | none => s.fail
    | some (g, z) => (s.setHeader zone z).setSlgd c { g with op := none }
  | .cleanup i =>
    match g.checkZoneFree zone z with
    | none => s.fail
    | some (g', z) =>
      let op :=
        match zoneNext zone (g.zoneAry i) with
        | [] => Op.scan (i + 1)
        | zone' :: _ => .work (.cleanup i) zone' .read
      (s.setHeader zone z).setSlgd c { g' with op := some op }

def advance : Op → State C
  | .scan i =>
    if i < nzones then
      match (s.slgd c).zoneAry i with
      | _ :: zone :: _ => s.setOp c (some (.work (.cleanup i) zone .read))
      | _ => s.setOp c (some (.scan (i + 1)))
    else s.setOp c none
  | .work kind zone pc =>
    let goto (s : State C) (pc : Pc) := s.setOp c (some (.work kind zone pc))
    match (s.slot zone).header with
    | none => s.fail
    | some z =>
      match pc with
      | .test =>
        match kind with
        | .malloc _ _ => goto s (if z.rChunks = none then .signal else .read)
        | .remote _ => goto s (if z.rChunks = none then .read else .signal)
        | .cleanup _ => goto s .read
      | .signal =>
        match kind with
        | .malloc _ _ => goto (s.setHeader zone { z with rSignal := true }) .read
        | .remote _ => goto (s.setHeader zone { z with rSignal := false }) .read
        | .cleanup _ => goto s .read
      | .read =>
        match z.rChunks with
        | none => goto s .settle
        | some bchunk => goto s (.swap bchunk)
      | .swap bchunk =>
        if z.rChunks = some bchunk then
          match z.drain bchunk with
          | none => s.fail
          | some z => goto (s.setHeader zone z) .settle
        else goto s .read
      | .settle => s.settle c kind zone z

/-! ## Other cpus -/

def remoteStep (zone : ℕ) (t : Task) : State C :=
  let σ := s.slot zone
  let rest := σ.tasks.erase t
  let goto (z : SLZone C) (pc : FreePc) :=
    s.setSlot zone { σ with header := some z, tasks := ⟨t.chunk, pc⟩ ::ₘ rest }
  match σ.header with
  | none => s.fail
  | some z =>
    match t.pc with
    | .sample => goto z (if z.rSignal then .retain else .read false)
    | .retain => goto { z with rCount := z.rCount + 1 } (.read true)
    | .read rsignal =>
      goto { z with cNext := update z.cNext t.chunk z.rChunks } (.link rsignal z.rChunks)
    | .link rsignal bchunk =>
      if z.rChunks = bchunk then
        let z := { z with rChunks := some t.chunk }
        if rsignal then goto z (if bchunk = none then .signal else .drop)
        else s.setSlot zone { σ with header := some z, tasks := rest }
      else goto z (.read rsignal)
    | .signal => s.setSlot zone { σ with messages := z.cpu ::ₘ σ.messages, tasks := rest }
    | .drop =>
      s.setSlot zone { σ with header := some { z with rCount := z.rCount - 1 }, tasks := rest }

end State

inductive Event (C : Type) where
  /-- A request, up to where it takes a chunk, starts to drain a zone or sleeps. -/
  | kmalloc (c : C) (size : ℕ)
  | slabAllocated (c : C) (size zone : ℕ)
  | slabAllocFailed (c : C) (size : ℕ)
  /-- The hysteresis of `kmalloc`: a free zone goes back to the kernel map. -/
  | release (c : C)
  | kfree (c : C) (zone : ℕ) (l : Live C)
  | remote (zone : ℕ) (t : Task)
  | kfreeRemote (c : C) (zone : ℕ)
  | slabCleanup (c : C)
  | advance (c : C)
  /-- The user of a chunk writes its first word. -/
  | store (zone : ℕ) (l : Live C) (v : Option ℕ)
  deriving DecidableEq

namespace State

variable {C : Type} [DecidableEq C]

/-- The events a state may take.  A cpu that is in an operation starts no other. -/
def Enabled (cfg : Config) (s : State C) : Event C → Prop
  | .kmalloc c size => (s.slgd c).op = none ∧ cfg.Zoned size
  | .slabAllocated c size zone =>
    (s.slgd c).op = none ∧ size ∈ (s.slgd c).blocked ∧ (s.slot zone).header.isNone
  | .slabAllocFailed c size => size ∈ (s.slgd c).blocked
  | .release c => (s.slgd c).op = none ∧ cfg.zoneRelsThresh < (s.slgd c).freeZones.length
  | .kfree c zone l =>
    l ∈ (s.slot zone).live ∧ ((s.slot zone).header.any (fun z => z.cpu = c) → (s.slgd c).op = none)
  | .remote zone t => t ∈ (s.slot zone).tasks
  | .kfreeRemote c zone => (s.slgd c).op = none ∧ c ∈ (s.slot zone).messages
  | .slabCleanup c => (s.slgd c).op = none
  | .advance c => (s.slgd c).op.isSome
  | .store zone l _ => l ∈ (s.slot zone).live

instance (cfg : Config) (s : State C) (e : Event C) : Decidable (s.Enabled cfg e) := by
  cases e <;> unfold Enabled <;> infer_instance

def perform (cfg : Config) (s : State C) : Event C → State C
  | .kmalloc c size => s.kmalloc cfg c size
  | .slabAllocated c size zone => s.slabAllocated cfg c size zone
  | .slabAllocFailed c size =>
    s.setSlgd c { s.slgd c with blocked := (s.slgd c).blocked.erase size }
  | .release c =>
    match (s.slgd c).freeZones with
    | [] => s.fail
    | zone :: rest =>
      (s.setSlot zone { s.slot zone with header := none }).setSlgd c
        { s.slgd c with freeZones := rest }
  | .kfree c zone l => s.kfree c zone l
  | .remote zone t => s.remoteStep zone t
  | .kfreeRemote c zone => s.kfreeRemote c zone
  | .slabCleanup c => s.setOp c (some (.scan 0))
  | .advance c =>
    match (s.slgd c).op with
    | none => s
    | some op => s.advance c op
  | .store zone l v =>
    match (s.slot zone).header with
    | none => s.fail
    | some z =>
      s.setHeader zone { z with cNext := update z.cNext l.chunk v }

/-- The system stops at the first panic. -/
def next (cfg : Config) (s : State C) (e : Event C) : Option (State C) :=
  if s.panicked = false ∧ s.Enabled cfg e then some (s.perform cfg e) else none

end State

end DragonFly.Slab
