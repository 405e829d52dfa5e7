import DragonFly.CyclicIndex
import DragonFly.LinkedChain
import DragonFly.SlabModel

/-!
# The chunks of a zone

Every chunk of a zone in use is in one of five places: on the list of the owner, on
the list of the other cpus, in the never used part, with its user, or in the hands
of a `kfree` that has not linked it yet.  What the code does to a zone moves chunks
from one place to another.
-/

namespace DragonFly.Slab

open Function List
open Multiset (singleton_add nodup_add mem_add cons_erase cons_coe notMem_zero cons_add
  card_eq_zero)

/-! ## Sizes -/

theorem roundup_lt (halign : 0 < align) : roundup n align < n + align := by
  have hle : roundup n align ≤ n + (align - 1) := Nat.div_mul_le_self _ _
  omega

def bytesOf (i : ℕ) : ℕ :=
  if i < 16 then (i + 1) * 8
  else if i < 24 then (i - 7) * 16
  else if i < 32 then (i - 15) * 32
  else if i < 40 then (i - 23) * 64
  else if i < 48 then (i - 31) * 128
  else if i < 56 then (i - 39) * 256
  else if i < 64 then (i - 47) * 512
  else (i - 55) * 1024

structure ZoneClass.Fits (k : ZoneClass) (n : ℕ) : Prop where
  le_bytes : n ≤ k.bytes
  eight : 8 ≤ k.bytes
  align_pos : 0 < k.align
  align_le : k.align ≤ k.bytes
  index_lt : k.index < nzones
  bytes_eq : k.bytes = bytesOf k.index

theorem zoneRange_fits (height : 8 ≤ align) (hlow : 8 * align ≤ n) (hhigh : n < 16 * align)
    (hfirst : first + 16 < nzones)
    (hbytes : ∀ q, 8 ≤ q → q ≤ 16 → q * align = bytesOf (q + first)) :
    (zoneRange n align first).Fits n := by
  have hpos : 0 < align := by omega
  have hq : 8 ≤ (n + (align - 1)) / align := by
    rw [Nat.le_div_iff_mul_le hpos]
    omega
  have hq' : (n + (align - 1)) / align ≤ 16 := by
    rw [Nat.div_le_iff_le_mul hpos]
    omega
  have hle : n ≤ (n + (align - 1)) / align * align := by
    have hmod := Nat.div_add_mod' (n + (align - 1)) align
    have hlt := Nat.mod_lt (n + (align - 1)) hpos
    omega
  have hindex : roundup n align / align = (n + (align - 1)) / align := Nat.mul_div_cancel _ hpos
  constructor
  · exact hle
  · exact le_trans (by omega) hle
  · exact hpos
  · have hn : align ≤ n := by omega
    exact le_trans hn hle
  · simp only [zoneRange, hindex]
    omega
  · simp only [zoneRange, hindex]
    exact hbytes _ hq hq'

theorem zoneindex_fits (hn : 0 < n) (h : zoneindex n = some k) : k.Fits n := by
  unfold zoneindex at h
  split_ifs at h <;> cases h
  -- The first range starts at a chunk of eight bytes.
  · have hround : roundup n 8 = (n + 7) / 8 * 8 := rfl
    have hindex : roundup n 8 / 8 - 1 < 16 := by omega
    constructor <;> simp only [bytesOf, if_pos hindex, nzones] <;> omega
  all_goals
    apply zoneRange_fits
    · norm_num
    · omega
    · omega
    · decide
    · decide

variable {cfg : Config} {size : ℕ}

theorem zoneindex_isSome (h : cfg.Zoned size) : ∃ k, zoneindex size = some k := by
  have hlimit : size < 16384 := by
    have hle : cfg.zoneLimit ≤ zoneLimitMax := min_le_right _ _
    have hlt := h.2.1
    simp only [zoneLimitMax] at hle
    omega
  unfold zoneindex
  split_ifs <;> exact ⟨_, rfl⟩

theorem zoneindex_bytes_le (h : cfg.Zoned size) (hk : zoneindex size = some k) :
    4 * k.bytes ≤ cfg.zoneSize := by
  have hlimit : size < min (cfg.zoneSize / 4) zoneLimitMax := h.2.1
  have hsize := cfg.zoneSize_mem
  unfold zoneindex zoneRange roundup at hk
  split_ifs at hk <;> cases hk <;> simp only <;> omega

theorem Config.baseOffset_le (cfg : Config) (h : k.Fits n) : cfg.baseOffset k < 2200 + k.bytes := by
  have hsize : cfg.zoneSize ≤ 131072 := by
    have hmem := cfg.zoneSize_mem
    omega
  have hdiv : cfg.zoneSize / k.bytes ≤ 16384 := by
    have hmono : cfg.zoneSize / k.bytes ≤ cfg.zoneSize / 8 :=
      Nat.div_le_div_left h.eight (by norm_num)
    omega
  have hround : ∀ off, off ≤ 2200 →
      (if powerof2 k.bytes then roundup off k.bytes else roundup off k.align) <
        2200 + k.bytes := by
    intro off hoff
    have hpos : 0 < k.bytes := lt_of_lt_of_le (by norm_num) h.eight
    have hbytes := roundup_lt (n := off) hpos
    have halign := roundup_lt (n := off) h.align_pos
    have hle := h.align_le
    split_ifs <;> omega
  apply hround
  simp only [sizeofSLZone]
  split_ifs <;> omega

/-! ## Places of chunks -/

@[simp] def FreePc.holds : FreePc → Bool
  | .sample | .retain | .read _ | .link _ _ => true
  | .signal | .drop => false

@[simp] def FreePc.retains : FreePc → Bool
  | .read rsignal | .link rsignal _ => rsignal
  | .sample | .retain => false
  | .signal | .drop => true

section Places

variable {C : Type}

def heldBy (tasks : Multiset Task) : Multiset ℕ :=
  (tasks.filter fun t => t.pc.holds = true).map Task.chunk

def retainedBy (tasks : Multiset Task) : ℕ :=
  (tasks.filter fun t => t.pc.retains = true).card

/-- The calls and messages that `z_RCount` stands for. -/
def Slot.refs (σ : Slot C) : ℕ := retainedBy σ.tasks + σ.messages.card

def Slot.Unused (σ : Slot C) : Prop := σ.live = 0 ∧ σ.tasks = 0 ∧ σ.messages = 0

namespace Layout

def cell (z : Layout) (i : ℕ) : ℕ := z.basePtr + i * z.chunkSize

def cells (z : Layout) : List ℕ := (List.range z.nMax).map z.cell

/-- How many chunks lie between `z_UIndex` and `z_UEndIndex`. -/
def fresh (z : Layout) : ℕ := (z.uEndIndex + z.nMax - 1 - z.uIndex) % z.nMax

def freshCells (z : Layout) : List ℕ := (ringAfter z.nMax z.uIndex z.fresh).map z.cell

structure Shape (cfg : Config) (z : Layout) : Prop where
  eight : 8 ≤ z.chunkSize
  size : z.chunkSize = bytesOf z.zoneIndex
  room : z.basePtr + z.nMax * z.chunkSize ≤ cfg.zoneSize
  two : 2 ≤ z.nMax
  uIndex : z.uIndex < z.nMax
  uEndIndex : z.uEndIndex < z.nMax

variable {z : Layout}

theorem Shape.cell_injective (h : z.Shape cfg) : Function.Injective z.cell := by
  intro i j heq
  have hmul : i * z.chunkSize = j * z.chunkSize := Nat.add_left_cancel heq
  have hpos : 0 < z.chunkSize := lt_of_lt_of_le (by norm_num) h.eight
  exact Nat.eq_of_mul_eq_mul_right hpos hmul

theorem Shape.nodup_cells (h : z.Shape cfg) : z.cells.Nodup :=
  List.Nodup.map h.cell_injective nodup_range

@[simp] theorem length_freshCells (z : Layout) : z.freshCells.length = z.fresh := by
  simp [freshCells]

theorem Shape.fresh_eq (h : z.Shape cfg) :
    z.fresh = if z.uIndex < z.uEndIndex then z.uEndIndex - 1 - z.uIndex
      else z.uEndIndex + z.nMax - 1 - z.uIndex := by
  have hend := h.uEndIndex
  unfold fresh
  split_ifs with hlt
  · have hsplit : z.uEndIndex + z.nMax - 1 - z.uIndex =
        z.uEndIndex - 1 - z.uIndex + z.nMax := by omega
    rw [hsplit, Nat.add_mod_right]
    exact Nat.mod_eq_of_lt (by omega)
  · exact Nat.mod_eq_of_lt (by omega)

theorem Shape.uIndex_succ (h : z.Shape cfg) :
    (if z.uIndex + 1 ≠ z.nMax then z.uIndex + 1 else 0) = (z.uIndex + 1) % z.nMax := by
  have hu := h.uIndex
  split_ifs with hlast
  · exact (Nat.mod_eq_of_lt (by omega)).symm
  · have hmax : z.uIndex + 1 = z.nMax := by omega
    rw [hmax, Nat.mod_self]

def forward (z : Layout) : Layout := { z with uIndex := (z.uIndex + 1) % z.nMax }

theorem Shape.forward (h : z.Shape cfg) : z.forward.Shape cfg := by
  have htwo := h.two
  exact { h with uIndex := Nat.mod_lt _ (by omega) }

theorem Shape.fresh_succ (h : z.Shape cfg) (hpos : 0 < z.fresh) :
    z.forward.uIndex ≠ z.uEndIndex ∧
      z.freshCells = z.cell z.forward.uIndex :: z.forward.freshCells := by
  have hend := h.uEndIndex
  have hbefore := h.fresh_eq
  have hafter := h.forward.fresh_eq
  have hplace : (if z.uIndex + 1 ≠ z.nMax then z.uIndex + 1 else 0) = z.forward.uIndex :=
    h.uIndex_succ
  have hmax : z.forward.nMax = z.nMax := rfl
  have hendIndex : z.forward.uEndIndex = z.uEndIndex := rfl
  have hstep : z.forward.uIndex ≠ z.uEndIndex ∧ z.fresh = z.forward.fresh + 1 := by
    split_ifs at hbefore hafter hplace <;> omega
  constructor
  · exact hstep.1
  · unfold freshCells
    rw [hstep.2, ringAfter_succ, map_cons]
    rfl

end Layout

/-! ## Zones in use -/

/-- A zone in use: `L` and `R` are the chunks on its lists, and `taken` is one while a
`kmalloc` has counted a chunk off that it has not taken yet. -/
structure Sound (cfg : Config) (σ : Slot C) (z : SLZone C) (taken : ℤ) (L R : List ℕ) :
    Prop where
  shape : z.toLayout.Shape cfg
  chain : Chain z.cNext z.lChunks L
  tail : z.lChunksp = L.getLast?
  remote : Chain z.cNext z.rChunks R
  parts : (L : Multiset ℕ) + R + z.freshCells + σ.live.map Live.chunk + heldBy σ.tasks = z.cells
  count : z.nFree + taken = L.length + z.fresh
  refs : z.rCount = σ.refs
  linked : ∀ t ∈ σ.tasks, ∀ rsignal bchunk, t.pc = .link rsignal bchunk → z.cNext t.chunk = bchunk
  owned : ∀ l ∈ σ.live, l.cpu = z.cpu ∧ l.size ≤ z.chunkSize
  sent : ∀ c ∈ σ.messages, c = z.cpu
  used : ∀ p ∈ z.cells, p ∈ σ.used ↔ p ∉ z.freshCells

@[simp] theorem heldBy_zero : heldBy 0 = 0 := rfl

theorem heldBy_cons (t : Task) (tasks : Multiset Task) :
    heldBy (t ::ₘ tasks) =
      if t.pc.holds = true then t.chunk ::ₘ heldBy tasks else heldBy tasks := by
  unfold heldBy
  split_ifs with hholds
  · rw [Multiset.filter_cons_of_pos (p := fun t : Task => t.pc.holds = true) _ hholds,
      Multiset.map_cons]
  · rw [Multiset.filter_cons_of_neg (p := fun t : Task => t.pc.holds = true) _ hholds]

theorem retainedBy_cons (t : Task) (tasks : Multiset Task) :
    retainedBy (t ::ₘ tasks) =
      if t.pc.retains = true then retainedBy tasks + 1 else retainedBy tasks := by
  unfold retainedBy
  split_ifs with hretains
  · rw [Multiset.filter_cons_of_pos (p := fun t : Task => t.pc.retains = true) _ hretains,
      Multiset.card_cons]
  · rw [Multiset.filter_cons_of_neg (p := fun t : Task => t.pc.retains = true) _ hretains]

variable {t : Task} {tasks : Multiset Task}

theorem heldBy_erase (ht : t ∈ tasks) :
    heldBy tasks = if t.pc.holds = true then t.chunk ::ₘ heldBy (tasks.erase t)
      else heldBy (tasks.erase t) := by
  rw [← heldBy_cons, cons_erase ht]

theorem retainedBy_erase (ht : t ∈ tasks) :
    retainedBy tasks = if t.pc.retains = true then retainedBy (tasks.erase t) + 1
      else retainedBy (tasks.erase t) := by
  rw [← retainedBy_cons, cons_erase ht]

theorem heldBy_move (ht : t ∈ tasks) (hpc : pc.holds = t.pc.holds) :
    heldBy (⟨t.chunk, pc⟩ ::ₘ tasks.erase t) = heldBy tasks := by
  rw [heldBy_cons, heldBy_erase ht, hpc]

theorem mem_heldBy (ht : t ∈ tasks) (hholds : t.pc.holds = true) : t.chunk ∈ heldBy tasks :=
  Multiset.mem_map_of_mem _ (Multiset.mem_filter.mpr ⟨ht, hholds⟩)

/-- The parts of a header that do not change while the zone is in use. -/
structure Same (z z' : SLZone C) : Prop where
  magic : z'.magic = z.magic
  kup : z'.kup = z.kup
  cpu : z'.cpu = z.cpu
  zoneIndex : z'.zoneIndex = z.zoneIndex
  chunkSize : z'.chunkSize = z.chunkSize

namespace Sound

variable {cfg : Config} {σ : Slot C} {z : SLZone C} {taken : ℤ} {L R : List ℕ}

variable {p : ℕ} {l : Live C}

section

variable (h : Sound cfg σ z taken L R)
include h

theorem nodup :
    ((L : Multiset ℕ) + R + z.freshCells + σ.live.map Live.chunk + heldBy σ.tasks).Nodup := by
  rw [h.parts]
  exact Multiset.coe_nodup.mpr h.shape.nodup_cells

theorem not_mem_lists (hp : p ∈ σ.live.map Live.chunk + heldBy σ.tasks) : p ∉ L ++ R := by
  have hnodup := h.nodup
  rw [add_assoc, add_assoc] at hnodup
  have hdisjoint := (nodup_add.mp hnodup).2.2
  intro hmem
  have hleft : p ∈ ((L : Multiset ℕ) + R) := by
    rw [Multiset.coe_add]
    exact hmem
  have hright : p ∈ (z.freshCells : Multiset ℕ) + (σ.live.map Live.chunk + heldBy σ.tasks) :=
    mem_add.mpr (.inr hp)
  exact Multiset.disjoint_left.mp hdisjoint hleft hright

theorem live_not_held (hp : p ∈ σ.live.map Live.chunk) : p ∉ heldBy σ.tasks := by
  have hdisjoint := (nodup_add.mp h.nodup).2.2
  intro hmem
  exact Multiset.disjoint_left.mp hdisjoint (mem_add.mpr (.inr hp)) hmem

theorem held_ne (ht : t ∈ σ.tasks) (hholds : t.pc.holds = true) (hu : u ∈ σ.tasks.erase t)
    (hholds' : u.pc.holds = true) : u.chunk ≠ t.chunk := by
  have hnodup := (nodup_add.mp h.nodup).2.1
  rw [heldBy_erase ht, if_pos hholds, Multiset.nodup_cons] at hnodup
  intro heq
  apply hnodup.1
  rw [← heq]
  exact mem_heldBy hu hholds'

theorem mem_cells (hl : l ∈ σ.live) : l.chunk ∈ z.cells := by
  have hmem : l.chunk ∈
      (L : Multiset ℕ) + R + z.freshCells + σ.live.map Live.chunk + heldBy σ.tasks := by
    rw [mem_add, mem_add]
    exact .inl (.inr (Multiset.mem_map_of_mem _ hl))
  rw [h.parts] at hmem
  exact hmem

theorem nodup_lists : (L ++ R).Nodup := by
  have hnodup := h.nodup
  rw [add_assoc, add_assoc] at hnodup
  have hlists := (nodup_add.mp hnodup).1
  rw [Multiset.coe_add] at hlists
  exact Multiset.coe_nodup.mp hlists

theorem length_parts :
    L.length + R.length + z.fresh + σ.live.card + (heldBy σ.tasks).card = z.nMax := by
  have hcard := congrArg Multiset.card h.parts
  simpa [Layout.cells, add_assoc] using hcard

theorem write_handed_out (v : Option ℕ) (hp : p ∈ σ.live.map Live.chunk + heldBy σ.tasks)
    (hlinked : ∀ t ∈ σ.tasks, ∀ rsignal bchunk,
      t.pc = .link rsignal bchunk → update z.cNext p v t.chunk = bchunk) :
    Sound cfg σ { z with cNext := update z.cNext p v } taken L R := by
  have hnot := h.not_mem_lists hp
  rw [mem_append, not_or] at hnot
  exact { h with
      chain := h.chain.update hnot.1 v
      remote := h.remote.update hnot.2 v
      linked := hlinked }

end

theorem reserve (h : Sound cfg σ z 0 L R) : Sound cfg σ { z with nFree := z.nFree - 1 } 1 L R := by
  have hcount : z.nFree - 1 + 1 = L.length + z.fresh := by
    have hbefore := h.count
    omega
  exact { h with count := hcount }

theorem take_listed
    (h : Sound cfg σ z 1 L R) (hhead : z.lChunks = some p) (hsize : size ≤ z.chunkSize)
    (header : Option (SLZone C)) (tail : Option ℕ)
    (htail : tail = if z.cNext p = none then none else z.lChunksp) :
    Sound cfg ⟨header, σ.tasks, σ.messages, ⟨z.cpu, p, size⟩ ::ₘ σ.live, insert p σ.used⟩
      { z with lChunks := z.cNext p, lChunksp := tail } 0 L.tail R := by
  have hchain := h.chain
  rw [hhead] at hchain
  obtain ⟨l, hL, hrest⟩ := hchain.eq_cons
  subst hL
  refine { h with
      chain := ?_, tail := ?_, parts := ?_, count := ?_, owned := ?_, used := ?_ }
  · exact hrest
  · have hlast := h.tail
    rw [htail, tail_cons]
    cases l with
    | nil => exact if_pos hrest
    | cons b l =>
      rw [if_neg (by rw [hrest.1]; exact Option.some_ne_none b), hlast, getLast?_cons_cons]
  · have hparts := h.parts
    rw [← cons_coe, ← singleton_add] at hparts
    rw [tail_cons, Multiset.map_cons, ← singleton_add, ← hparts]
    exact (by abel)
  · have hcount := h.count
    simp only [length_cons, Nat.cast_add, Nat.cast_one] at hcount
    simp only [tail_cons]
    omega
  · intro m hm
    rcases Multiset.mem_cons.mp hm with rfl | hm
    · exact ⟨rfl, hsize⟩
    · exact h.owned m hm
  · intro q hq
    have hused := h.used q hq
    by_cases heq : q = p
    · subst heq
      have hfresh : q ∉ z.freshCells := by
        have hnodup := h.nodup
        rw [← cons_coe, cons_add, cons_add, cons_add,
          cons_add, Multiset.nodup_cons] at hnodup
        intro hmem
        apply hnodup.1
        simp [hmem]
      exact iff_of_true (Finset.mem_insert_self q σ.used) hfresh
    · rw [Finset.mem_insert, or_iff_right heq]
      exact hused

theorem take_fresh (h : Sound cfg σ z 1 [] R)
    (hpos : 0 < z.fresh) (hsize : size ≤ z.chunkSize) (header : Option (SLZone C)) :
    Sound cfg ⟨header, σ.tasks, σ.messages, ⟨z.cpu, z.cell z.forward.uIndex, size⟩ ::ₘ σ.live,
        insert (z.cell z.forward.uIndex) σ.used⟩
      { z with toLayout := z.forward } 0 [] R := by
  obtain ⟨_, hcells⟩ := h.shape.fresh_succ hpos
  have hlen := congrArg List.length hcells
  simp only [Layout.length_freshCells, length_cons] at hlen
  refine { h with
      shape := h.shape.forward
      parts := ?_, count := ?_, owned := ?_, used := ?_ }
  · have hparts := h.parts
    rw [hcells, ← cons_coe, ← singleton_add] at hparts
    rw [Multiset.map_cons, ← singleton_add]
    refine Eq.trans ?_ hparts
    abel
  · have hcount := h.count
    change z.nFree + 0 = (0 : ℕ) + (z.forward.fresh : ℤ)
    simp only [length_nil] at hcount
    omega
  · intro m hm
    rcases Multiset.mem_cons.mp hm with rfl | hm
    · exact ⟨rfl, hsize⟩
    · exact h.owned m hm
  · intro q hq
    have hused := h.used q hq
    have hnodup : z.freshCells.Nodup := by
      have hall := h.nodup
      rw [add_assoc, add_assoc] at hall
      exact Multiset.coe_nodup.mp (nodup_add.mp (nodup_add.mp hall).2.1).1
    rw [hcells] at hused hnodup
    rw [Finset.mem_insert]
    by_cases heq : q = z.cell z.forward.uIndex
    · exact iff_of_true (.inl heq) (heq ▸ (nodup_cons.mp hnodup).1)
    · rw [or_iff_right heq, hused, mem_cons, or_iff_right heq]

theorem takeChunk (h : Sound cfg σ z 1 L R) (hfree : 0 ≤ z.nFree) (hsize : size ≤ z.chunkSize) :
    ∃ p z' L', z.takeChunk z.chunkSize = some (p, z') ∧ Same z z' ∧
      z'.nFree = z.nFree ∧ z'.rChunks = z.rChunks ∧ z'.rSignal = z.rSignal ∧ ∀ header, Sound cfg
        ⟨header, σ.tasks, σ.messages, ⟨z.cpu, p, size⟩ ::ₘ σ.live, insert p σ.used⟩ z' 0 L' R := by
  by_cases hhead : z.lChunks = none
  · have hL : L = [] := h.chain.head_eq_none_iff.mp hhead
    subst hL
    have hpos : 0 < z.fresh := by
      have hcount := h.count
      simp only [length_nil, Nat.cast_zero] at hcount
      omega
    obtain ⟨hend, _⟩ := h.shape.fresh_succ hpos
    have htake : z.takeChunk z.chunkSize =
        some (z.cell z.forward.uIndex, { z with toLayout := z.forward }) := by
      have hplace : (z.uIndex + 1) % z.nMax ≠ z.uEndIndex := hend
      simp only [SLZone.takeChunk, hhead, h.shape.uIndex_succ, if_neg hplace]
      rfl
    refine ⟨_, _, [], htake, ⟨rfl, rfl, rfl, rfl, rfl⟩, rfl, rfl, rfl, ?_⟩
    intro header
    exact h.take_fresh hpos hsize header
  · obtain ⟨p, hhead⟩ := Option.ne_none_iff_exists'.mp hhead
    have htake : z.takeChunk z.chunkSize = some (p, { z with
            lChunks := z.cNext p
            lChunksp := if z.cNext p = none then none else z.lChunksp }) := by
      simp only [SLZone.takeChunk, hhead]
      split_ifs <;> rfl
    refine ⟨_, _, L.tail, htake, ⟨rfl, rfl, rfl, rfl, rfl⟩, rfl, rfl, rfl, ?_⟩
    intro header
    exact h.take_listed hhead hsize header _ rfl

theorem countChunks_eq {head : Option ℕ} (h : Chain z.cNext head r) (hfuel : r.length ≤ fuel) :
    SLZone.countChunks fuel head z = some { z with
        lChunksp := if r = [] then z.lChunksp else r.getLast?
        nFree := z.nFree + r.length } := by
  induction r generalizing fuel head z with
  | nil =>
    have hhead : head = none := h
    subst hhead
    cases fuel <;> simp [SLZone.countChunks]
  | cons p r ih =>
    have hhead : head = some p := h.1
    subst hhead
    obtain ⟨fuel, rfl⟩ : ∃ n, fuel = n + 1 := by
      cases fuel with
      | zero => simp at hfuel
      | succ n => exact ⟨n, rfl⟩
    have hrest := ih (z := { z with lChunksp := some p, nFree := z.nFree + 1 })
      h.2 (Nat.le_of_succ_le_succ hfuel)
    rw [SLZone.countChunks, hrest]
    cases r with
    | nil => simp
    | cons q r =>
      simp only [length_cons, Nat.cast_add, Nat.cast_one, getLast?_cons_cons,
        reduceCtorEq, if_false, Option.some.injEq]
      congr 1
      omega

section

variable (h : Sound cfg σ z taken L R)
include h

theorem storeTail_eq (hb : z.rChunks = some b) :
    ∃ head links, { z with rChunks := none }.storeTail (some b) =
        { z with rChunks := none, lChunks := head, cNext := links } ∧
      Chain links (some b) R ∧ Chain links head (L ++ R) ∧
      ∀ p, p ∉ L → links p = z.cNext p := by
  have hremote := h.remote
  rw [hb] at hremote
  have hnodup := h.nodup_lists
  have htail := h.tail
  rcases eq_nil_or_concat L with hL | ⟨l, a, hL⟩
  · subst hL
    have hnone : z.lChunksp = none := htail
    refine ⟨some b, z.cNext, ?_, hremote, hremote, fun _ _ => rfl⟩
    simp only [SLZone.storeTail, hnone]
  · rw [concat_eq_append] at hL
    subst hL
    have hsome : z.lChunksp = some a := by
      rw [htail, getLast?_concat]
    have ha : a ∉ R := by
      intro hmem
      rw [append_assoc] at hnodup
      exact (nodup_cons.mp (nodup_append.mp hnodup).2.1).1 hmem
    refine ⟨z.lChunks, update z.cNext a (some b), ?_, hremote.update ha _,
      h.chain.append_last hremote hnodup, ?_⟩
    · simp only [SLZone.storeTail, hsome]
    · intro p hp
      apply update_of_ne
      rintro rfl
      simp at hp

theorem drain (hb : z.rChunks = some b) :
    ∃ z', z.drain b = some z' ∧ Same z z' ∧ z'.nFree = z.nFree + R.length ∧
      0 < R.length ∧ z'.rChunks = none ∧ z'.rSignal = z.rSignal ∧
      ∀ header, Sound cfg { σ with header := header } z' taken (L ++ R) [] := by
  have hlength : R.length ≤ z.nMax := by
    have hparts := h.length_parts
    omega
  have hne : R ≠ [] := by
    intro hnil
    rw [← h.remote.head_eq_none_iff, hb] at hnil
    simp at hnil
  obtain ⟨head, links, hstore, hchain, hjoined, hlinks⟩ := h.storeTail_eq hb
  have hdrain : z.drain b = some { z with
        rChunks := none
        lChunks := head
        cNext := links
        lChunksp := R.getLast?
        nFree := z.nFree + R.length } := by
    have hcount := countChunks_eq
      (z := { z with rChunks := none, lChunks := head, cNext := links }) hchain hlength
    rw [if_neg hne] at hcount
    rw [SLZone.drain, hstore]
    exact hcount
  refine ⟨_, hdrain, ⟨rfl, rfl, rfl, rfl, rfl⟩, rfl, length_pos_of_ne_nil hne, rfl, rfl, ?_⟩
  intro header
  refine { h with
      chain := hjoined
      remote := rfl
      tail := ?_, parts := ?_, count := ?_, linked := ?_ }
  · rw [getLast?_append_of_ne_nil L hne]
  · rw [← h.parts, ← Multiset.coe_add, Multiset.coe_nil, add_zero]
  · have hbefore := h.count
    simp only [length_append, Nat.cast_add]
    omega
  · intro t ht rsignal bchunk hpc
    have hheld : t.chunk ∈ heldBy σ.tasks := mem_heldBy ht (by rw [hpc]; rfl)
    have hnot := h.not_mem_lists (mem_add.mpr (.inr hheld))
    have hkeep := hlinks t.chunk fun hmem => hnot (mem_append_left R hmem)
    exact hkeep.trans (h.linked t ht rsignal bchunk hpc)

theorem freeChunk [DecidableEq C] (hl : l ∈ σ.live) (header : Option (SLZone C)) :
    Sound cfg { σ with header := header, live := σ.live.erase l } (z.freeChunk l.chunk) taken
      (l.chunk :: L) R := by
  have hlive : l.chunk ∈ σ.live.map Live.chunk := Multiset.mem_map_of_mem _ hl
  have hnot := h.not_mem_lists (mem_add.mpr (.inl hlive))
  rw [mem_append, not_or] at hnot
  have herase : σ.live.map Live.chunk = l.chunk ::ₘ (σ.live.erase l).map Live.chunk := by
    rw [← Multiset.map_cons, cons_erase hl]
  refine { h with
      chain := h.chain.push hnot.1
      remote := h.remote.update hnot.2 _
      tail := ?_, parts := ?_, count := ?_, linked := ?_, owned := ?_ }
  · have htail := h.tail
    simp only [SLZone.freeChunk, h.chain.head_eq_none_iff]
    cases L with
    | nil => simp
    | cons p L =>
      rw [if_neg (cons_ne_nil p L), htail, getLast?_cons_cons]
  · have hparts := h.parts
    rw [herase, ← singleton_add] at hparts
    rw [← cons_coe, ← singleton_add]
    refine Eq.trans ?_ hparts
    simp only [SLZone.freeChunk]
    abel
  · have hcount := h.count
    simp only [SLZone.freeChunk, length_cons, Nat.cast_add, Nat.cast_one]
    omega
  · intro t ht rsignal bchunk hpc
    have hne : t.chunk ≠ l.chunk := by
      intro heq
      apply h.live_not_held hlive
      rw [← heq]
      exact mem_heldBy ht (by rw [hpc]; rfl)
    exact (update_of_ne hne _ _).trans (h.linked t ht rsignal bchunk hpc)
  · intro m hm
    exact h.owned m (Multiset.mem_of_mem_erase hm)

theorem handOver [DecidableEq C] (hl : l ∈ σ.live) :
    Sound cfg
      { σ with live := σ.live.erase l, tasks := ⟨l.chunk, .sample⟩ ::ₘ σ.tasks }
      z taken L R := by
  have herase : σ.live.map Live.chunk = l.chunk ::ₘ (σ.live.erase l).map Live.chunk := by
    rw [← Multiset.map_cons, cons_erase hl]
  have hheld : heldBy (⟨l.chunk, .sample⟩ ::ₘ σ.tasks) = l.chunk ::ₘ heldBy σ.tasks := by
    rw [heldBy_cons]
    exact if_pos rfl
  refine { h with parts := ?_, refs := ?_, linked := ?_, owned := ?_ }
  · have hparts := h.parts
    rw [herase, ← singleton_add] at hparts
    rw [hheld, ← singleton_add l.chunk (heldBy σ.tasks)]
    refine Eq.trans ?_ hparts
    abel
  · have hrefs := h.refs
    simp only [Slot.refs, retainedBy_cons] at hrefs ⊢
    exact hrefs
  · intro t ht rsignal bchunk hpc
    rcases Multiset.mem_cons.mp ht with rfl | ht
    · simp at hpc
    · exact h.linked t ht rsignal bchunk hpc
  · intro m hm
    exact h.owned m (Multiset.mem_of_mem_erase hm)

theorem recount {r : ℤ} (header : Option (SLZone C)) (hheld : heldBy tasks = heldBy σ.tasks)
    (hrefs : r = (retainedBy tasks + messages.card : ℕ)) (hlinked : ∀ t ∈ tasks, ∀ rsignal bchunk,
      t.pc = .link rsignal bchunk → z.cNext t.chunk = bchunk) (hsent : ∀ c ∈ messages, c = z.cpu) :
    Sound cfg ⟨header, tasks, messages, σ.live, σ.used⟩ { z with rCount := r } taken L R := by
  have hparts := h.parts
  rw [← hheld] at hparts
  exact { h with parts := hparts, refs := hrefs, linked := hlinked, sent := hsent }

theorem link (header : Option (SLZone C)) (ht : t ∈ σ.tasks) (hpc : t.pc = .link rsignal z.rChunks)
    (hheld : heldBy tasks = heldBy (σ.tasks.erase t))
    (hretained : retainedBy tasks = retainedBy σ.tasks) (hlinked : ∀ u ∈ tasks, ∀ rsignal bchunk,
      u.pc = .link rsignal bchunk → z.cNext u.chunk = bchunk) :
    Sound cfg ⟨header, tasks, σ.messages, σ.live, σ.used⟩
      { z with rChunks := some t.chunk } taken L (t.chunk :: R) := by
  have hsplit : heldBy σ.tasks = t.chunk ::ₘ heldBy (σ.tasks.erase t) := by
    rw [← cons_erase ht, heldBy_cons, cons_erase ht, if_pos (by rw [hpc]; rfl)]
  refine { h with remote := ?_, parts := ?_, refs := ?_, linked := hlinked }
  · apply Chain.cons
    have hnext : z.cNext t.chunk = z.rChunks := h.linked t ht _ _ hpc
    rw [hnext]
    exact h.remote
  · have hparts := h.parts
    rw [hsplit, ← singleton_add] at hparts
    rw [hheld, ← cons_coe, ← singleton_add]
    refine Eq.trans ?_ hparts
    abel
  · have hrefs := h.refs
    simp only [Slot.refs] at hrefs ⊢
    rw [hretained]
    exact hrefs

end

/-- A zone that counts all of its chunks free, and has no references, is out of
everybody's hands. -/
theorem unused_of_full
    (h : Sound cfg σ z 0 L R) (hfull : z.nFree = z.nMax) (hcount : z.rCount = 0) : σ.Unused := by
  have hlength := h.length_parts
  have hfree := h.count
  have hlive : σ.live.card = 0 := by omega
  have hheld : (heldBy σ.tasks).card = 0 := by omega
  have hrefs := h.refs
  simp only [Slot.refs] at hrefs
  have hretained : retainedBy σ.tasks = 0 := by omega
  have hmessages : σ.messages.card = 0 := by omega
  refine ⟨card_eq_zero.mp hlive, ?_, card_eq_zero.mp hmessages⟩
  rw [Multiset.eq_zero_iff_forall_notMem]
  intro t ht
  -- A call that no longer holds its chunk has a reference.
  have hcases : t.pc.holds = true ∨ t.pc.retains = true := by
    cases t.pc with
    | signal | drop => exact .inr rfl
    | _ => exact .inl rfl
  rcases hcases with hholds | hretains
  · have hmem := mem_heldBy ht hholds
    rw [card_eq_zero.mp hheld] at hmem
    exact notMem_zero _ hmem
  · have hmem : t ∈ σ.tasks.filter fun t => t.pc.retains = true :=
      Multiset.mem_filter.mpr ⟨ht, hretains⟩
    rw [card_eq_zero.mp hretained] at hmem
    exact notMem_zero _ hmem

theorem init (hsize : cfg.Zoned size) (hk : zoneindex size = some k) (hunused : σ.Unused) (cpu : C)
    (junkIndex : ℕ) (cNext : ℕ → Option ℕ) (header : Option (SLZone C)) :
    let z := SLZone.init cfg cpu k junkIndex cNext
    let p := z.basePtr + z.uIndex * k.bytes
    Sound cfg ⟨header, σ.tasks, σ.messages, ⟨cpu, p, size⟩ ::ₘ σ.live, {p}⟩ z 0 [] [] := by
  intro z p
  obtain ⟨hlive, htasks, hmessages⟩ := hunused
  have hfits := zoneindex_fits hsize.1 hk
  have hquarter := zoneindex_bytes_le hsize hk
  have hoffset := cfg.baseOffset_le hfits
  have hzone : 32768 ≤ cfg.zoneSize := by
    have hmem := cfg.zoneSize_mem
    omega
  have hpos : 0 < k.bytes := lt_of_lt_of_le (by norm_num) hfits.eight
  have htwo : 2 ≤ z.nMax := by
    change 2 ≤ (cfg.zoneSize - cfg.baseOffset k) / k.bytes
    rw [Nat.le_div_iff_mul_le hpos]
    omega
  have hroom : z.basePtr + z.nMax * z.chunkSize ≤ cfg.zoneSize := by
    have hle : (cfg.zoneSize - cfg.baseOffset k) / k.bytes * k.bytes ≤
        cfg.zoneSize - cfg.baseOffset k := Nat.div_mul_le_self _ _
    change cfg.baseOffset k + (cfg.zoneSize - cfg.baseOffset k) / k.bytes * k.bytes ≤ _
    omega
  have hpositive : 0 < z.nMax := by omega
  have hu : z.uIndex < z.nMax := Nat.mod_lt _ hpositive
  have hshape : z.toLayout.Shape cfg := ⟨hfits.eight, hfits.bytes_eq, hroom, htwo, hu, hu⟩
  have hfresh : z.fresh = z.nMax - 1 := by
    have heq := hshape.fresh_eq
    have hend : z.uEndIndex = z.uIndex := rfl
    rw [hend, if_neg (lt_irrefl _)] at heq
    omega
  have hcells : (p :: z.freshCells).Perm z.cells := by
    have hturn := (cons_ringAfter_perm hu).map z.cell
    rw [map_cons, ← hfresh] at hturn
    exact hturn
  have hnodup : (p :: z.freshCells).Nodup := hcells.nodup_iff.mpr hshape.nodup_cells
  constructor
  · exact hshape
  · rfl
  · rfl
  · rfl
  · have hsum : {p} + (z.freshCells : Multiset ℕ) = z.cells := by
      rw [singleton_add, cons_coe]
      exact Multiset.coe_eq_coe.mpr hcells
    rw [hlive, htasks, heldBy_zero, Multiset.map_cons, Multiset.map_zero, Multiset.coe_nil,
      Multiset.cons_zero, ← hsum]
    abel
  · have hfree : z.nFree = (z.nMax : ℤ) - 1 := rfl
    rw [hfree, hfresh]
    simp only [length_nil]
    omega
  · simp only [Slot.refs, htasks, hmessages]
    rfl
  · intro t ht
    rw [htasks] at ht
    exact absurd ht (notMem_zero t)
  · intro m hm
    rcases Multiset.mem_cons.mp hm with rfl | hm
    · exact ⟨rfl, hfits.le_bytes⟩
    · rw [hlive] at hm
      exact absurd hm (notMem_zero m)
  · intro c hc
    rw [hmessages] at hc
    exact absurd hc (notMem_zero c)
  · intro q hq
    have hmem := hcells.mem_iff.mpr hq
    rw [Finset.mem_singleton]
    constructor
    · intro heq
      rw [heq]
      exact (nodup_cons.mp hnodup).1
    · intro hnot
      exact (mem_cons.mp hmem).resolve_right hnot

end Sound

end Places

end DragonFly.Slab
