import DragonFly.NmallocModel

/-!
# Lengths of blocks

A request is answered by at least the bytes it asks for when its length stays one unit
of rounding away from the end of `size_t`, and only then.
-/

namespace DragonFly.Nmalloc

open BitVec

theorem toNat_sub_one {alignment : SizeT} {k : ℕ} (hk : alignment.toNat = 2 ^ k) :
    (alignment - 1).toNat = 2 ^ k - 1 := by
  rw [toNat_sub_of_le, hk]
  · rfl
  · rw [le_def, hk]
    exact Nat.two_pow_pos k

theorem zoneFit_spec
    {n chunking : SizeT} {k limit : ℕ} (base : ℤ) (hchunking : chunking.toNat = 2 ^ k)
    (hn : n.toNat ≤ limit * 2 ^ k) (hlimit : limit * 2 ^ k + 2 ^ k ≤ 2 ^ 64) :
    n.toNat ≤ (zoneFit n chunking base).bytes.toNat ∧
      (zoneFit n chunking base).bytes.toNat ≤ limit * 2 ^ k ∧
      (zoneFit n chunking base).index ≤ limit + base := by
  have hpos : 0 < 2 ^ k := Nat.two_pow_pos k
  have hmask := toNat_sub_one hchunking
  have hwrap : n.toNat + 2 ^ k ≤ 2 ^ 64 := by omega
  have hdiv : (n.toNat + (2 ^ k - 1)) / 2 ^ k ≤ limit := by
    rw [Nat.div_le_iff_le_mul_add_pred hpos, Nat.mul_comm]
    omega
  have hvalue := alignUp_toNat hmask hwrap
  simp only [zoneFit]
  refine ⟨le_alignUp hmask hwrap, ?_, ?_⟩
  · rw [hvalue]
    exact Nat.mul_le_mul_right _ hdiv
  · rw [hvalue, hchunking]
    push_cast
    rw [Int.mul_ediv_cancel _ (by positivity)]
    have hdiv' : ((n.toNat + (2 ^ k - 1) : ℕ) : ℤ) / ((2 ^ k : ℕ) : ℤ) ≤ limit := by
      exact_mod_cast hdiv
    push_cast at hdiv'
    omega

/-- What the callers of `zoneindex` rely on. -/
structure Fits (size : SizeT) (fit : ZoneFit) : Prop where
  covers : size.toNat ≤ fit.bytes.toNat
  bounded : fit.bytes.toNat ≤ 16384
  index : fit.index < nzones

theorem fits_zoneFit (k : ℕ) (hchunking : chunking.toNat = 2 ^ k) (hn : n.toNat ≤ 16 * 2 ^ k)
    (hk : k ≤ 10 ∧ base < 56) : Fits n (zoneFit n chunking base) := by
  have hpow : 2 ^ k ≤ 2 ^ 10 := Nat.pow_le_pow_right (by decide) hk.1
  obtain ⟨hcovers, hbounded, hle⟩ := zoneFit_spec base hchunking hn (by omega)
  refine ⟨hcovers, by omega, ?_⟩
  unfold nzones
  omega

variable {size : SizeT}

theorem zoneindex_spec
    (h : size < zoneLimit) : ∃ fit, zoneindex size = some fit ∧ Fits size fit := by
  have hlt : size.toNat < 16384 := h
  have hn : (size.setWidth 32).setWidth 64 = size := by
    apply eq_of_toNat_eq
    simp only [toNat_setWidth]
    omega
  unfold zoneindex
  simp only [hn, lt_def]
  split_ifs with h128 h256 h8192 h512 h1024 h2048 h4096 h16384
  · exact ⟨_, rfl, fits_zoneFit 3 rfl h128.le (by decide)⟩
  · exact ⟨_, rfl, fits_zoneFit 4 rfl h256.le (by decide)⟩
  · exact ⟨_, rfl, fits_zoneFit 5 rfl h512.le (by decide)⟩
  · exact ⟨_, rfl, fits_zoneFit 6 rfl h1024.le (by decide)⟩
  · exact ⟨_, rfl, fits_zoneFit 7 rfl h2048.le (by decide)⟩
  · exact ⟨_, rfl, fits_zoneFit 8 rfl h4096.le (by decide)⟩
  · exact ⟨_, rfl, fits_zoneFit 9 rfl h8192.le (by decide)⟩
  · exact ⟨_, rfl, fits_zoneFit 10 rfl h16384.le (by decide)⟩
  · exact absurd hlt h16384

/-! ## Mappings -/

theorem alignUp_page_toNat (h : size.toNat + 4096 ≤ 2 ^ 64) :
    size.toNat ≤ (alignUp size pageMask).toNat ∧ (alignUp size pageMask).toNat + 4096 ≤ 2 ^ 64 ∧
      4096 ∣ (alignUp size pageMask).toNat := by
  have hmask : pageMask.toNat = 2 ^ 12 - 1 := rfl
  have hdvd := alignUp_dvd size hmask
  refine ⟨le_alignUp hmask h, ?_, hdvd⟩
  obtain ⟨m, hm⟩ := hdvd
  omega

theorem alignUp_page_eq_zero (h : 2 ^ 64 < size.toNat + 4096) : alignUp size pageMask = 0 :=
  alignUp_eq_zero (k := 12) rfl h

def mappedSize (size : SizeT) : SizeT :=
  let size := alignUp size pageMask
  if size &&& 8191 = 0 then size + 4096 else size

theorem le_mappedSize (h : size.toNat + 4096 ≤ 2 ^ 64) : size.toNat ≤ (mappedSize size).toNat := by
  obtain ⟨hle, hroom, hdvd⟩ := alignUp_page_toNat h
  unfold mappedSize
  simp only
  split_ifs with hcolour
  · have hmod : (alignUp size pageMask).toNat % 8192 = 0 := by
      have hnat := congrArg BitVec.toNat hcolour
      have hand : (alignUp size pageMask &&& 8191).toNat =
          (alignUp size pageMask).toNat % 2 ^ 13 := by
        rw [toNat_and]
        exact Nat.and_two_pow_sub_one_eq_mod _ 13
      rw [hand] at hnat
      exact hnat
    have hpage : (4096 : SizeT).toNat = 4096 := rfl
    rw [toNat_add, hpage]
    omega
  · exact hle

theorem mappedSize_of_wrap (h : 2 ^ 64 < size.toNat + 4096) : mappedSize size = 4096 := by
  unfold mappedSize
  rw [alignUp_page_eq_zero h]
  rfl

theorem mappedSize_ne_zero (hsize : size ≠ 0) : mappedSize size ≠ 0 := by
  by_cases h : size.toNat + 4096 ≤ 2 ^ 64
  · intro hzero
    have hle := le_mappedSize h
    rw [hzero] at hle
    apply hsize
    apply eq_of_toNat_eq
    exact Nat.le_zero.mp hle
  · rw [mappedSize_of_wrap (Nat.lt_of_not_le h)]
    decide

/-! ## Addresses in use -/

namespace Heap

def Uses (heap : Heap) (a : ℕ) : Prop :=
  a = 0 ∨ a = zeroLengthPtr ∨ (∃ i, ∃ big ∈ heap.bigallocArray i, a = big.base ∨ a = big.self) ∨
    ∃ chunk ∈ heap.chunks, a = chunk.1

/-- Every record is stored in a chunk, and none is for the zero length pointer. -/
def Sound (heap : Heap) : Prop :=
  ∀ i, ∀ big ∈ heap.bigallocArray i, big.base ≠ zeroLengthPtr ∧ (heap.chunks.lookup big.self).isSome

end Heap

/-- Answers that are addresses not in use, none for both a mapping and a chunk. -/
structure Fresh (heap : Heap) (mmapAnswers chunkAnswers : List (Option ℕ)) : Prop where
  unused : ∀ a, some a ∈ mmapAnswers ++ chunkAnswers → ¬ heap.Uses a
  apart : ∀ a, some a ∈ mmapAnswers → some a ∉ chunkAnswers

/-- A block of a given length that was not in use before. -/
inductive Granted (heap : Heap) (len : ℕ) : ℕ → Heap → Prop
  | chunk {obj : ℕ} {bytes : SizeT} {mem : ℕ → BitVec 8}
      (hobj : ¬ heap.Uses obj) (hlen : bytes.toNat = len) :
      Granted heap len obj { heap.addChunk obj bytes with mem := mem }
  | mapping {self base : ℕ} {selfBytes bytes : SizeT} {mem : ℕ → BitVec 8}
      (hbase : ¬ heap.Uses base) (hself : ¬ heap.Uses self) (hne : base ≠ self)
      (hlen : bytes.toNat = len) :
      Granted heap len base
        (({ heap.addChunk self selfBytes with mem := mem } : Heap).link ⟨self, base, bytes⟩)

namespace Heap

variable {heap : Heap} {a : ℕ}

theorem findBig_eq_none (h : ¬ heap.Uses a) : heap.findBig a = none := by
  rw [findBig, List.find?_eq_none]
  intro big hbig
  simp only [decide_eq_true_eq]
  intro hbase
  exact h (.inr (.inr (.inl ⟨_, big, hbig, .inl hbase.symm⟩)))

theorem uses_of_findBig (h : heap.findBig a = some big) : heap.Uses a ∧ heap.Uses big.self := by
  have hmem := List.mem_of_find?_eq_some h
  have hbase : big.base = a := by simpa using List.find?_some h
  constructor
  · exact .inr (.inr (.inl ⟨_, big, hmem, .inl hbase.symm⟩))
  · exact .inr (.inr (.inl ⟨_, big, hmem, .inr rfl⟩))

theorem uses_of_lookup (h : heap.chunks.lookup a = some bytes) : heap.Uses a := by
  have hmem : (a, bytes) ∈ heap.chunks := by
    rw [List.lookup_eq_some_iff] at h
    obtain ⟨l₁, l₂, hsplit, _⟩ := h
    rw [hsplit]
    simp
  exact .inr (.inr (.inr ⟨_, hmem, rfl⟩))

theorem findBig_link_self (heap : Heap) (big : Bigalloc) :
    (heap.link big).findBig big.base = some big := by
  simp [findBig, link]

theorem findBig_link_of_ne (heap : Heap) (h : big.base ≠ a) :
    (heap.link big).findBig a = heap.findBig a := by
  unfold findBig link
  by_cases hhash : bigallocHash a = bigallocHash big.base
  · rw [hhash]
    simp [h]
  · simp [Function.update_of_ne hhash]

theorem length_of_findBig (big : Bigalloc) (h : heap.findBig a = some big) :
    heap.length a = some big.bytes.toNat := by
  rw [length, h]

theorem length_of_lookup {bytes : SizeT} (hbig : heap.findBig a = none) (hne : a ≠ zeroLengthPtr)
    (h : heap.chunks.lookup a = some bytes) : heap.length a = some bytes.toNat := by
  rw [length, hbig, h]
  simp [hne]

end Heap

namespace Granted

variable {heap heap' : Heap} {len ptr : ℕ}

variable (h : Granted heap len ptr heap')
include h

theorem not_uses : ¬ heap.Uses ptr := by
  cases h with
  | chunk hobj _ => exact hobj
  | mapping hbase _ _ _ => exact hbase

theorem findBig_of_uses (ha : heap.Uses a) : heap'.findBig a = heap.findBig a := by
  cases h with
  | chunk _ _ => rfl
  | mapping hbase _ _ _ =>
    rw [Heap.findBig_link_of_ne]
    · rfl
    · rintro rfl
      exact hbase ha

theorem lookup_of_uses (ha : heap.Uses a) : heap'.chunks.lookup a = heap.chunks.lookup a := by
  have hcons : ∀ (q : ℕ) (bytes : SizeT), ¬ heap.Uses q →
      List.lookup a ((q, bytes) :: heap.chunks) = heap.chunks.lookup a := by
    intro q bytes hq
    rw [List.lookup_cons]
    have hne : (a == q) = false := by
      rw [beq_eq_false_iff_ne]
      rintro rfl
      exact hq ha
    rw [hne]
  cases h with
  | chunk hobj _ => exact hcons _ _ hobj
  | mapping _ hself _ _ => exact hcons _ _ hself

theorem length_of_lookup {heap'' : Heap} (hbig : heap''.bigallocArray = heap'.bigallocArray)
    (hlookup : ∀ bytes, heap'.chunks = (ptr, bytes) :: heap.chunks →
      heap''.chunks.lookup ptr = some bytes) : heap''.length ptr = some len := by
  have hfind : heap''.findBig ptr = heap'.findBig ptr := by rw [Heap.findBig, hbig, Heap.findBig]
  cases h with
  | @chunk obj bytes _ hobj hlen =>
    rw [← hlen]
    have hnone : heap''.findBig ptr = none := hfind.trans (Heap.findBig_eq_none hobj :)
    apply Heap.length_of_lookup hnone
    · rintro rfl
      exact hobj (.inr (.inl rfl))
    · exact hlookup bytes rfl
  | @mapping self _ selfBytes bytes _ hbase _ _ hlen =>
    rw [← hlen]
    exact Heap.length_of_findBig ⟨self, ptr, bytes⟩ (hfind.trans (Heap.findBig_link_self _ _))

theorem length_removeChunk (ha : heap.Uses a) (mem : ℕ → BitVec 8) :
    (({ heap' with mem := mem } : Heap).removeChunk a).length ptr = some len := by
  have hbig : (({ heap' with mem := mem } : Heap).removeChunk a).bigallocArray =
      heap'.bigallocArray := rfl
  apply h.length_of_lookup hbig
  intro bytes hchunks
  have hne : ¬ ptr = a := by
    rintro rfl
    exact h.not_uses ha
  simp [Heap.removeChunk, hchunks, hne]

theorem length : heap'.length ptr = some len := by
  apply h.length_of_lookup rfl
  intro bytes hchunks
  simp [hchunks]

end Granted

end DragonFly.Nmalloc
