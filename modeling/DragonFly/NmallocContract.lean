import DragonFly.NmallocLengths

/-!
# What a call returns

Every allocating call either fails and leaves the heap alone, or grants a block of at
least the length that reached it.  Where the length is rounded past the end of `size_t`
a short block is granted.
-/

namespace DragonFly.Nmalloc

open List Option Heap

/-- The call fails and the heap is as before, or a block of the length is granted. -/
def Answered (heap : Heap) (need : ℕ) : Option (Option ℕ × State) → Prop
  | none => False
  | some (none, s) => s.heap = heap
  | some (some ptr, s) => ∃ len, need ≤ len ∧ Granted heap len ptr s.heap

variable {a ptr len : ℕ} {size align alignment : SizeT} {s : State} {heap : Heap} {call : Call}

theorem vmemAlloc_mem (h : vmemAlloc size align answers = (some a, rest)) :
    some a ∈ answers ∧ size ≠ 0 := by
  induction answers with
  | nil => cases h
  | cons answer answers ih =>
    cases answer with
    | none => cases h
    | some addr =>
      rw [vmemAlloc] at h
      split_ifs at h with hsize halign
      · cases h
      · obtain ⟨hmem, hne⟩ := ih h
        exact ⟨mem_cons_of_mem _ hmem, hne⟩
      · cases h
        exact ⟨mem_cons_self, hsize⟩

theorem zoneAlloc_some (zero : Bool) (hsize : size < zoneLimit)
    (hanswers : s.chunkAnswers = some obj :: answers) :
    ∃ (bytes : SizeT) (mem : ℕ → BitVec 8), size.toNat ≤ bytes.toNat ∧ zoneAlloc s size zero =
        some (some obj, { s with heap := { s.heap.addChunk obj bytes with mem := mem },
                                 chunkAnswers := answers }) := by
  obtain ⟨fit, hfit, hcovers, _, hindex⟩ := zoneindex_spec hsize
  unfold zoneAlloc
  rw [hfit, bind_some, if_pos hindex, hanswers]
  by_cases hzero : (zero || s.zeroAll) = true
  · refine ⟨fit.bytes, (s.heap.bzero obj fit.bytes).mem, hcovers, ?_⟩
    simp only [hzero, if_true]
    rfl
  · refine ⟨fit.bytes, s.heap.mem, hcovers, ?_⟩
    simp only [hzero]
    rfl

theorem zoneAlloc_cases (s : State) (zero : Bool) (hsize : size < zoneLimit) :
    (∃ answers, zoneAlloc s size zero = some (none, { s with chunkAnswers := answers })) ∨
      ∃ obj bytes mem answers, some obj ∈ s.chunkAnswers ∧ size.toNat ≤ bytes.toNat ∧
        zoneAlloc s size zero =
          some (some obj, { s with heap := { s.heap.addChunk obj bytes with mem := mem },
                                   chunkAnswers := answers }) := by
  obtain ⟨heap, zeroAll, mmapAnswers, chunkAnswers⟩ := s
  obtain ⟨fit, hfit, _, _, hindex⟩ := zoneindex_spec hsize
  cases chunkAnswers with
  | nil =>
    refine .inl ⟨[], ?_⟩
    unfold zoneAlloc
    rw [hfit, bind_some, if_pos hindex]
  | cons answer answers =>
    cases answer with
    | none =>
      refine .inl ⟨answers, ?_⟩
      unfold zoneAlloc
      rw [hfit, bind_some, if_pos hindex]
    | some obj =>
      obtain ⟨bytes, mem, hle, h⟩ :=
        zoneAlloc_some (s := ⟨heap, zeroAll, mmapAnswers, some obj :: answers⟩) zero hsize rfl
      exact .inr ⟨obj, bytes, mem, answers, mem_cons_self, hle, h⟩

abbrev State.Fresh (s : State) : Prop :=
  Nmalloc.Fresh s.heap s.mmapAnswers s.chunkAnswers

theorem zoneAlloc_answered (hfresh : s.Fresh) (hsize : size < zoneLimit) :
    Answered s.heap size.toNat (zoneAlloc s size zero) := by
  rcases zoneAlloc_cases s zero hsize with
    ⟨answers, h⟩ | ⟨obj, bytes, mem, answers, hobj, hle, h⟩
  · rw [h]
    exact rfl
  · rw [h]
    have hunused := hfresh.unused obj (mem_append_right _ hobj)
    exact ⟨bytes.toNat, hle, .chunk hunused rfl⟩

theorem bigAlloc_answered (hfresh : s.Fresh) (hneed : size ≠ 0 → need ≤ size.toNat) :
    Answered s.heap need (bigAlloc s size align) := by
  unfold bigAlloc
  match hvmem : vmemAlloc size align s.mmapAnswers with
  | (none, answers) => exact rfl
  | (some base, answers) =>
    obtain ⟨hbase, hne⟩ := vmemAlloc_mem hvmem
    have hbaseUnused := hfresh.unused base (mem_append_left _ hbase)
    have hsmall : sizeofBigalloc < zoneLimit := by decide
    rcases zoneAlloc_cases { s with mmapAnswers := answers } false hsmall with
      ⟨rest, h⟩ | ⟨self, bytes, mem, rest, hself, _, h⟩
    · simp only [h]
      exact rfl
    · simp only [h]
      have hselfUnused := hfresh.unused self (mem_append_right _ hself)
      refine ⟨size.toNat, hneed hne, .mapping hbaseUnused hselfUnused ?_ rfl⟩
      rintro rfl
      exact hfresh.apart base hbase hself

theorem slaballoc_answered (zero : Bool) (hfresh : s.Fresh)
    (hsize : size ≠ 0) (hfits : size.toNat + 4096 ≤ 2 ^ 64) :
    Answered s.heap size.toNat (slaballoc s size zero) := by
  unfold slaballoc
  rw [if_neg hsize]
  split_ifs with hbig
  · exact bigAlloc_answered hfresh fun _ => le_mappedSize hfits
  · apply zoneAlloc_answered hfresh
    rw [not_or, BitVec.not_le] at hbig
    exact hbig.1

/-! ## The calls -/

def Call.requested : Call → ℕ
  | .malloc size => size.toNat
  | .calloc number size => number.toNat * size.toNat
  | .realloc _ size => size.toNat
  | .posixMemalign _ size => size.toNat

/-- `realloc` is given a block in use, or `NULL`, and a new length. -/
def Call.Valid (heap : Heap) : Call → Prop
  | .realloc ptr size => size ≠ 0 ∧ (ptr = 0 ∨ (heap.length ptr).isSome)
  | _ => True

/-- A block is in use as before, with the bytes it had. -/
def Kept (heap heap' : Heap) (ptr : ℕ) : Prop :=
  heap'.length ptr = heap.length ptr ∧ heap'.mem = heap.mem

/-- The call reports a failure, and a block to be reallocated stays as it is, or it returns a
block of the length it was asked for. -/
def Meets (call : Call) (heap : Heap) : Option (Except Errno ℕ × State) → Prop
  | none => False
  | some (.ok ptr, s) => ∃ len, s.heap.length ptr = some len ∧ call.requested ≤ len
  | some (.error _, s) => ∀ ptr size, call = .realloc ptr size → Kept heap s.heap ptr

/-- The length of the request, rounded up, does not pass the end of `size_t`. -/
def Call.Representable : Call → Prop
  | .malloc size => size.toNat + 4096 ≤ 2 ^ 64
  | .calloc number size => number.toNat * size.toNat + 4096 ≤ 2 ^ 64
  | .realloc _ size => size.toNat + 4096 ≤ 2 ^ 64
  | .posixMemalign alignment size =>
    alignmentRefused alignment = true ∨ size.toNat + alignment.toNat ≤ 2 ^ 64

theorem meets_of_answered (h : Answered heap need result) (hneed : call.requested ≤ need) :
    Meets call heap (result.map report) := by
  match result, h with
  | some (none, s), h =>
    have hheap : s.heap = heap := h
    intro ptr size _
    rw [hheap]
    exact ⟨rfl, rfl⟩
  | some (some ptr, s), ⟨len, hle, hgranted⟩ =>
    exact ⟨len, hgranted.length, hneed.trans hle⟩

theorem Heap.Sound.findBig_zeroLengthPtr (h : heap.Sound) : heap.findBig zeroLengthPtr = none := by
  rw [findBig, find?_eq_none]
  intro big hbig
  simp only [decide_eq_true_eq]
  exact (h _ big hbig).1

theorem Heap.Sound.length_zeroLengthPtr (h : heap.Sound) : heap.length zeroLengthPtr = some 0 := by
  rw [length, h.findBig_zeroLengthPtr]
  rfl

theorem Heap.mem_of_mem_unlink (h : big ∈ (heap.unlink ptr).bigallocArray i) :
    big ∈ heap.bigallocArray i := by
  simp only [unlink, Function.update_apply] at h
  split_ifs at h with hi
  · rw [hi]
    exact mem_of_mem_eraseP h
  · exact h

theorem Heap.Sound.unlink (h : heap.Sound) (ptr : ℕ) : (heap.unlink ptr).Sound :=
  fun i big hbig => h i big (Heap.mem_of_mem_unlink hbig)

theorem meets_slaballoc (hsound : s.heap.Sound) (hfresh : s.Fresh)
    (hfits : size.toNat + 4096 ≤ 2 ^ 64) (hneed : call.requested ≤ size.toNat) :
    Meets call s.heap ((slaballoc s size zero).map report) := by
  by_cases hsize : size = 0
  · subst hsize
    exact ⟨0, hsound.length_zeroLengthPtr, hneed⟩
  · exact meets_of_answered (slaballoc_answered zero hfresh hsize hfits) hneed

theorem Fresh.unlink (h : Fresh heap mmapAnswers chunkAnswers) (ptr : ℕ) :
    Fresh (heap.unlink ptr) mmapAnswers chunkAnswers := by
  refine ⟨?_, h.apart⟩
  intro a ha huses
  apply h.unused a ha
  rcases huses with hzero | hzero | ⟨i, big, hbig, hor⟩ | hchunk
  · exact .inl hzero
  · exact .inr (.inl hzero)
  · exact .inr (.inr (.inl ⟨i, big, mem_of_mem_unlink hbig, hor⟩))
  · exact .inr (.inr (.inr hchunk))

theorem zoneFree_granted
    (src : ℕ) (size : SizeT) (h : Granted heap len ptr s.heap) (ha : heap.Uses a)
    (hlookup : (heap.chunks.lookup a).isSome) :
    ∃ s', zoneFree { s with heap := s.heap.bcopy src ptr size } a = some s' ∧
      s'.heap.length ptr = some len := by
  rw [← h.lookup_of_uses ha, isSome_iff_exists] at hlookup
  obtain ⟨chunkSize, hchunk⟩ := hlookup
  unfold zoneFree
  simp only [bcopy, hchunk, map_some, Option.some.injEq, exists_eq_left']
  split_ifs
  · exact h.length_removeChunk ha _
  · exact h.length_removeChunk ha _

theorem zoneFree_zeroLengthPtr (src : ℕ) (size : SizeT) (h : s.heap.findBig zeroLengthPtr = none)
    (hlookup : (s.heap.chunks.lookup a).isSome) :
    ∃ s', zoneFree { s with heap := s.heap.bcopy src zeroLengthPtr size } a = some s' ∧
      s'.heap.length zeroLengthPtr = some 0 := by
  obtain ⟨chunkSize, hchunk⟩ := isSome_iff_exists.mp hlookup
  have hlength : ∀ heap : Heap, heap.findBig zeroLengthPtr = none →
      heap.length zeroLengthPtr = some 0 := by
    intro heap hnone
    rw [Heap.length, hnone]
    rfl
  unfold zoneFree
  simp only [Heap.bcopy, hchunk, map_some, Option.some.injEq, exists_eq_left']
  apply hlength
  split_ifs
  · exact h
  · exact h

theorem slabfree_chunk (hnull : ptr ≠ 0) (hzero : ptr ≠ zeroLengthPtr)
    (hbig : s.heap.findBig ptr = none) : slabfree { s with heap := s.heap.bcopy src dst size } ptr =
      zoneFree { s with heap := s.heap.bcopy src dst size } ptr := by
  have hfind : (s.heap.bcopy src dst size).findBig ptr = none := hbig
  unfold slabfree
  rw [if_neg hnull, if_neg hzero]
  simp only [hfind]

theorem uses_of_length (h : (heap.length ptr).isSome) : heap.Uses ptr := by
  unfold Heap.length at h
  cases hbig : heap.findBig ptr with
  | some big => exact (Heap.uses_of_findBig hbig).1
  | none =>
    simp only [hbig] at h
    split_ifs at h with hzero
    · exact .inr (.inl hzero)
    · rw [isSome_map, isSome_iff_exists] at h
      obtain ⟨bytes, hbytes⟩ := h
      exact Heap.uses_of_lookup hbytes

theorem lookup_of_length (hbig : heap.findBig ptr = none) (hzero : ptr ≠ zeroLengthPtr)
    (hlength : (heap.length ptr).isSome) : (heap.chunks.lookup ptr).isSome := by
  unfold Heap.length at hlength
  simp only [hbig, if_neg hzero, isSome_map] at hlength
  exact hlength

/-! ## Sufficiency -/

theorem meets_realloc_big (hsound : s.heap.Sound) (hfresh : s.Fresh) (hsize : size ≠ 0)
    (hfits : size.toNat + 4096 ≤ 2 ^ 64) (hbig : s.heap.findBig ptr = some big)
    (hptr : ¬ (ptr = 0 ∨ ptr = zeroLengthPtr)) :
    Meets (.realloc ptr size) s.heap ((slabrealloc s ptr size).map report) := by
  obtain ⟨hle, hroom, _⟩ := alignUp_page_toNat hfits
  have hmem := mem_of_find?_eq_some hbig
  have hbase : big.base = ptr := by simpa using find?_some hbig
  have hne : alignUp size pageMask ≠ 0 := by
    intro hzero
    rw [hzero] at hle
    exact hsize (BitVec.eq_of_toNat_eq (Nat.le_zero.mp hle))
  have hself : ((s.heap.unlink ptr).chunks.lookup big.self).isSome := (hsound _ big hmem).2
  unfold slabrealloc
  rw [if_neg hptr, if_neg hsize]
  simp only [hbig]
  by_cases hsame : big.bytes = alignUp size pageMask
  · rw [if_pos hsame]
    refine ⟨big.bytes.toNat, length_of_findBig big hbig, ?_⟩
    rw [hsame]
    exact hle
  · rw [if_neg hsame]
    have hanswered := slaballoc_answered (s := { s with heap := s.heap.unlink ptr }) false
      (hfresh.unlink ptr) hne hroom
    match hresult : slaballoc { s with heap := s.heap.unlink ptr } (alignUp size pageMask) false,
      hanswered with
    | some (none, s'), hheap =>
      have hheap' : s'.heap = s.heap.unlink ptr := hheap
      intro ptr' size' hcall
      cases hcall
      constructor
      · rw [length_of_findBig big hbig, ← hbase]
        exact length_of_findBig big (findBig_link_self _ big)
      · simp only [link, hheap', unlink]
    | some (some nptr, s'), ⟨len, hlen, hgranted⟩ =>
      obtain ⟨bytes, hbytes⟩ := isSome_iff_exists.mp hself
      obtain ⟨s'', hfree, hlength⟩ :=
        zoneFree_granted ptr
          (if big.bytes < alignUp size pageMask then big.bytes else alignUp size pageMask)
          hgranted (uses_of_lookup hbytes) hself
      rw [bind_some]
      simp only [hfree]
      exact ⟨len, hlength, hle.trans hlen⟩

theorem meets_realloc_chunk (hfresh : s.Fresh)
    (hsize : size ≠ 0) (hfits : size.toNat + 4096 ≤ 2 ^ 64)
    (hbig : s.heap.findBig ptr = none) (hptr : ¬ (ptr = 0 ∨ ptr = zeroLengthPtr))
    (hlength : (s.heap.length ptr).isSome) :
    Meets (.realloc ptr size) s.heap ((slabrealloc s ptr size).map report) := by
  rw [not_or] at hptr
  have huses := uses_of_length hlength
  have hlookup := lookup_of_length hbig hptr.2 hlength
  obtain ⟨chunkSize, hchunk⟩ := isSome_iff_exists.mp hlookup
  -- the length after `zoneindex`, if it is called
  obtain ⟨rounded, hrounded, hle, hroom⟩ :
      ∃ rounded, (if size < zoneLimit then (zoneindex size).map ZoneFit.bytes else some size) =
        some rounded ∧ size.toNat ≤ rounded.toNat ∧ rounded.toNat + 4096 ≤ 2 ^ 64 := by
    split_ifs with hlimit
    · obtain ⟨fit, hfit, hcovers, hbounded, _⟩ := zoneindex_spec hlimit
      refine ⟨fit.bytes, ?_, hcovers, by omega⟩
      rw [hfit, map_some]
    · exact ⟨size, rfl, le_rfl, hfits⟩
  have hne : rounded ≠ 0 := by
    rintro rfl
    exact hsize (BitVec.eq_of_toNat_eq (Nat.le_zero.mp hle))
  unfold slabrealloc
  rw [if_neg (not_or.mpr hptr), if_neg hsize]
  simp only [hbig, hchunk, bind_some, hrounded]
  by_cases hsame : size < zoneLimit ∧ chunkSize = rounded
  · rw [if_pos hsame]
    refine ⟨chunkSize.toNat, length_of_lookup hbig hptr.2 hchunk, ?_⟩
    rw [hsame.2]
    exact hle
  · rw [if_neg hsame]
    have hanswered := slaballoc_answered false hfresh hne hroom
    match hresult : slaballoc s rounded false, hanswered with
    | some (none, s'), hheap =>
      have hheap' : s'.heap = s.heap := hheap
      intro ptr' size' hcall
      rw [hheap']
      exact ⟨rfl, rfl⟩
    | some (some nptr, s'), ⟨len, hlen, hgranted⟩ =>
      obtain ⟨s'', hfree, hlength'⟩ :=
        zoneFree_granted ptr (if chunkSize < rounded then chunkSize else rounded) hgranted
          huses hlookup
      have hfind : s'.heap.findBig ptr = none := by
        rw [hgranted.findBig_of_uses huses, hbig]
      rw [bind_some]
      simp only [slabfree_chunk hptr.1 hptr.2 hfind, hfree]
      exact ⟨len, hlength', hle.trans hlen⟩

theorem meets_realloc (hsound : s.heap.Sound) (hfresh : s.Fresh)
    (hvalid : (Call.realloc ptr size).Valid s.heap) (hfits : size.toNat + 4096 ≤ 2 ^ 64) :
    Meets (.realloc ptr size) s.heap ((slabrealloc s ptr size).map report) := by
  obtain ⟨hsize, hlive⟩ := hvalid
  by_cases hptr : ptr = 0 ∨ ptr = zeroLengthPtr
  · unfold slabrealloc
    rw [if_pos hptr]
    exact meets_slaballoc hsound hfresh hfits le_rfl
  · cases hbig : s.heap.findBig ptr with
    | some big => exact meets_realloc_big hsound hfresh hsize hfits hbig hptr
    | none =>
      have hlength := hlive.resolve_left (not_or.mp hptr).1
      exact meets_realloc_chunk hfresh hsize hfits hbig hptr hlength

theorem le_growAlignment (hsize : size.toNat ≤ 16384) (fuel : ℕ) (alignment : SizeT)
    (hle : alignment.toNat ≤ 32768) (hfuel : size.toNat ≤ alignment.toNat * 2 ^ fuel) :
    size.toNat ≤ (growAlignment size fuel alignment).toNat ∧
      (growAlignment size fuel alignment).toNat ≤ 32768 := by
  induction fuel generalizing alignment with
  | zero =>
    rw [pow_zero, mul_one] at hfuel
    exact ⟨hfuel, hle⟩
  | succ fuel ih =>
    rw [growAlignment]
    split_ifs with hlt
    · have hlt' : alignment.toNat < size.toNat := hlt
      have hshift : (alignment <<< 1).toNat = alignment.toNat * 2 := by
        rw [BitVec.toNat_shiftLeft, Nat.shiftLeft_eq, pow_one]
        omega
      apply ih
      · omega
      · rw [hshift, mul_assoc, ← pow_succ']
        exact hfuel
    · rw [BitVec.not_lt] at hlt
      exact ⟨hlt, hle⟩

theorem exists_two_pow_of_not_refused (h : alignmentRefused alignment = false) :
    ∃ k, alignment.toNat = 2 ^ k ∧ 8 ≤ alignment.toNat := by
  simp only [alignmentRefused, Bool.or_eq_false_iff, Bool.not_eq_false', isPowerOfTwo,
    decide_eq_true_eq, decide_eq_false_iff_not, BitVec.not_lt] at h
  obtain ⟨hpower, hle⟩ := h
  have height : 8 ≤ alignment.toNat := hle
  obtain ⟨k, hk⟩ := exists_two_pow_of_or_word (by omega) hpower
  exact ⟨k, hk, height⟩

/-- A length below a page whose own zone has too little alignment gets a larger power of two. -/
theorem meets_memalign_zone (hsound : s.heap.Sound) (hfresh : s.Fresh) (hsmall : rounded < pageSize)
    (hneed : call.requested ≤ rounded.toNat) (hle : alignment.toNat ≤ rounded.toNat)
    (hpos : 0 < alignment.toNat) :
    Meets call s.heap ((zoneindex rounded).bind fun fit =>
        if alignment ≤ fit.chunking then (slaballoc s fit.bytes false).map report
        else
          let alignment := if 1024 ≤ fit.bytes then 1024 else alignment
          let alignment := if 16384 ≤ fit.bytes then 16384 else alignment
          (slaballoc s (growAlignment fit.bytes 64 alignment) false).map report) := by
  have hlt : rounded.toNat < 4096 := hsmall
  have hlimit : rounded < zoneLimit := by
    rw [BitVec.lt_def]
    exact hlt.trans (by decide)
  obtain ⟨fit, hfit, hcovers, hbounded, _⟩ := zoneindex_spec hlimit
  rw [hfit, bind_some]
  by_cases hchunking : alignment ≤ fit.chunking
  · rw [if_pos hchunking]
    exact meets_slaballoc hsound hfresh (by omega) (hneed.trans hcovers)
  · rw [if_neg hchunking]
    simp only
    generalize hgrown : (if (16384 : SizeT) ≤ fit.bytes then (16384 : SizeT)
      else if (1024 : SizeT) ≤ fit.bytes then 1024 else alignment) = start
    have hstart : 0 < start.toNat ∧ start.toNat ≤ 16384 := by
      rw [← hgrown]
      split_ifs
      · decide
      · decide
      · omega
    have hgrow := le_growAlignment hbounded 64 start (by omega) (by omega)
    exact meets_slaballoc hsound hfresh (by omega) (hneed.trans (hcovers.trans hgrow.1))

/-- A mapping that is not refused is at least as long as the length it was asked for. -/
theorem le_memalign_mapping
    (hne : alignUp (if rounded < align then align else rounded) pageMask ≠ 0) :
    rounded.toNat ≤ (alignUp (if rounded < align then align else rounded) pageMask).toNat := by
  generalize hsize : (if rounded < align then align else rounded) = size at hne ⊢
  have hle : rounded.toNat ≤ size.toNat := by
    rw [← hsize]
    split_ifs with hlt
    · exact Nat.le_of_lt hlt
    · exact le_rfl
  by_cases hfits : size.toNat + 4096 ≤ 2 ^ 64
  · exact hle.trans (alignUp_page_toNat hfits).1
  · exact absurd (alignUp_page_eq_zero (Nat.lt_of_not_le hfits)) hne

theorem meets_posixMemalign (hsound : s.heap.Sound) (hfresh : s.Fresh)
    (hfits : (Call.posixMemalign alignment size).Representable) :
    Meets (.posixMemalign alignment size) s.heap (posixMemalign s alignment size) := by
  unfold posixMemalign
  by_cases hrefused : alignmentRefused alignment = true
  · rw [if_pos hrefused]
    intro ptr size' hcall
    cases hcall
  · rw [if_neg hrefused]
    rw [Bool.not_eq_true] at hrefused
    obtain ⟨k, hk, height⟩ := exists_two_pow_of_not_refused hrefused
    have hroom : size.toNat + alignment.toNat ≤ 2 ^ 64 := by
      rcases hfits with hfits | hfits
      · rw [hrefused] at hfits
        cases hfits
      · exact hfits
    -- the length rounded to the alignment
    generalize hsize : (if size ≤ alignment then alignment else alignUp size (alignment - 1)) =
      rounded
    have hle : size.toNat ≤ rounded.toNat ∧ alignment.toNat ≤ rounded.toNat := by
      rw [← hsize]
      split_ifs with hsmall
      · exact ⟨hsmall, le_rfl⟩
      · rw [BitVec.not_le] at hsmall
        have hup : size.toNat ≤ (alignUp size (alignment - 1)).toNat := by
          apply le_alignUp (toNat_sub_one hk)
          rw [← hk]
          exact hroom
        exact ⟨hup, (Nat.le_of_lt hsmall).trans hup⟩
    by_cases hslab : rounded < pageSize ∧ isPowerOfTwo rounded = true
    · rw [if_pos hslab]
      have hlt : rounded.toNat < 4096 := hslab.1
      exact meets_slaballoc hsound hfresh (by omega) hle.1
    · rw [if_neg hslab]
      by_cases hsmall : rounded < pageSize
      · rw [if_pos hsmall]
        exact meets_memalign_zone hsound hfresh hsmall hle.1 hle.2 (by omega)
      · rw [if_neg hsmall]
        apply meets_of_answered (bigAlloc_answered hfresh fun hne => ?_) hle.1
        exact le_memalign_mapping hne

/-! ## Necessity -/

theorem Heap.exists_bound (heap : Heap) : ∃ bound, ∀ a, heap.Uses a → a < bound := by
  have hfinite : {a | heap.Uses a}.Finite := by
    have hrecords : (⋃ i, ⋃ big ∈ {big | big ∈ heap.bigallocArray i},
        ({big.base, big.self} : Set ℕ)).Finite := by
      apply Set.finite_iUnion
      intro i
      apply Set.Finite.biUnion (finite_toSet _)
      intro big _
      exact Set.toFinite _
    have hchunks : {a | a ∈ heap.chunks.map Prod.fst}.Finite := finite_toSet _
    apply ((Set.toFinite {0, zeroLengthPtr}).union (hrecords.union hchunks)).subset
    rintro a (hzero | hzero | ⟨i, big, hbig, hor⟩ | ⟨chunk, hchunk, ha⟩)
    · exact .inl (.inl hzero)
    · exact .inl (.inr hzero)
    · refine .inr (.inl ?_)
      simp only [Set.mem_iUnion]
      exact ⟨i, big, hbig, hor⟩
    · refine .inr (.inr ?_)
      rw [ha]
      exact mem_map_of_mem hchunk
  obtain ⟨bound, hbound⟩ := hfinite.bddAbove
  exact ⟨bound + 1, fun a ha => Nat.lt_succ_of_le (hbound ha)⟩

theorem Heap.exists_fresh (heap : Heap) :
    ∃ base obj, Fresh heap [some base] [some obj] ∧
      BitVec.ofNat 64 base &&& (pageSize - 1) = 0 := by
  obtain ⟨bound, hbound⟩ := heap.exists_bound
  refine ⟨4096 * (bound + 1), 4096 * (bound + 1) + 1, ⟨?_, ?_⟩, ?_⟩
  · intro a ha huses
    have hlt := hbound a huses
    simp only [cons_append, nil_append, mem_cons, Option.some.injEq, not_mem_nil, or_false] at ha
    omega
  · intro a ha
    simp only [mem_singleton, Option.some.injEq] at ha ⊢
    omega
  · apply BitVec.eq_of_toNat_eq
    have hmask : (pageSize - 1).toNat = 2 ^ 12 - 1 := rfl
    rw [BitVec.toNat_and, hmask, Nat.and_two_pow_sub_one_eq_mod, BitVec.toNat_ofNat]
    have hzero : (0 : BitVec 64).toNat = 0 := rfl
    omega

theorem Granted.len_lt (h : Granted heap len ptr heap') : len < 2 ^ 64 := by
  cases h with
  | @chunk _ bytes _ _ hlen | @mapping _ _ _ bytes _ _ _ _ hlen => exact hlen ▸ bytes.isLt

/-- With a page and a chunk at hand every request succeeds, and one that is rounded past
the end gets a page. -/
theorem slaballoc_succeeds (zeroAll zero : Bool) (hfresh : Fresh heap [some base] [some obj])
    (hpage : BitVec.ofNat 64 base &&& (pageSize - 1) = 0) (hsize : size ≠ 0) :
    ∃ ptr s len, slaballoc ⟨heap, zeroAll, [some base], [some obj]⟩ size zero =
        some (some ptr, s) ∧ Granted heap len ptr s.heap ∧
      (2 ^ 64 < size.toNat + 4096 → len = 4096) := by
  have hbase : ¬ heap.Uses base := hfresh.unused base (by simp)
  have hobj : ¬ heap.Uses obj := hfresh.unused obj (by simp)
  have hne : base ≠ obj := by
    rintro rfl
    exact hfresh.apart base (by simp) (by simp)
  unfold slaballoc
  rw [if_neg hsize]
  split_ifs with hbig
  · have hmapped := mappedSize_ne_zero hsize
    have hsmall : sizeofBigalloc < zoneLimit := by decide
    have hvmem : vmemAlloc (mappedSize size) pageSize [some base] = (some base, []) := by
      rw [vmemAlloc, if_neg hmapped, if_neg (not_not.mpr hpage)]
    obtain ⟨bytes, mem, _, h⟩ :=
      zoneAlloc_some (s := ⟨heap, zeroAll, [], [some obj]⟩) false hsmall rfl
    have hresult : bigAlloc ⟨heap, zeroAll, [some base], [some obj]⟩ (mappedSize size) pageSize =
        some (some base,
          ⟨({ heap.addChunk obj bytes with mem := mem } : Heap).link ⟨obj, base, mappedSize size⟩,
            zeroAll, [], []⟩) := by
      unfold bigAlloc
      simp only [hvmem, h]
      rfl
    refine ⟨base, _, (mappedSize size).toNat, hresult, .mapping hbase hobj hne rfl, ?_⟩
    · intro hwrap
      rw [mappedSize_of_wrap hwrap]
      rfl
  · rw [not_or, BitVec.not_le] at hbig
    obtain ⟨bytes, mem, _, h⟩ :=
      zoneAlloc_some (s := ⟨heap, zeroAll, [some base], [some obj]⟩) zero hbig.1 rfl
    refine ⟨obj, _, bytes.toNat, h, .chunk hobj rfl, ?_⟩
    intro hwrap
    have hlt : size.toNat < 16384 := hbig.1
    omega

theorem not_meets_of_length (hlength : s.heap.length ptr = some len) (hlt : len < call.requested) :
    ¬ Meets call heap (some (report (some ptr, s))) := by
  rintro ⟨len', hlength', hle⟩
  rw [hlength] at hlength'
  cases hlength'
  omega

theorem exists_not_meets_slaballoc
    (zeroAll zero : Bool) (hsound : heap.Sound) (hshort : 4096 < call.requested)
    (hwrap : size.toNat < call.requested ∧ 2 ^ 64 ≤ call.requested ∨ 2 ^ 64 < size.toNat + 4096) :
    ∃ mmapAnswers chunkAnswers, Fresh heap mmapAnswers chunkAnswers ∧ ¬ Meets call heap
        ((slaballoc ⟨heap, zeroAll, mmapAnswers, chunkAnswers⟩ size zero).map report) := by
  obtain ⟨base, obj, hfresh, hpage⟩ := heap.exists_fresh
  refine ⟨_, _, hfresh, ?_⟩
  by_cases hsize : size = 0
  · subst hsize
    exact not_meets_of_length hsound.length_zeroLengthPtr (by omega)
  · obtain ⟨ptr, s, len, hresult, hgranted, hlen⟩ :=
      slaballoc_succeeds zeroAll zero hfresh hpage hsize
    rw [hresult]
    apply not_meets_of_length hgranted.length
    have hlt := hgranted.len_lt
    rcases hwrap with ⟨_, hlarge⟩ | hwrap
    · omega
    · rw [hlen hwrap]
      exact hshort

theorem exists_not_meets_realloc (zeroAll : Bool) (hsound : heap.Sound)
    (hvalid : (Call.realloc ptr size).Valid heap) (hwrap : 2 ^ 64 < size.toNat + 4096) :
    ∃ mmapAnswers chunkAnswers, Fresh heap mmapAnswers chunkAnswers ∧
      ¬ Meets (.realloc ptr size) heap
        ((slabrealloc ⟨heap, zeroAll, mmapAnswers, chunkAnswers⟩ ptr size).map report) := by
  obtain ⟨hsize, hlive⟩ := hvalid
  have hshort : 4096 < (Call.realloc ptr size).requested := by
    simp only [Call.requested]
    omega
  by_cases hptr : ptr = 0 ∨ ptr = zeroLengthPtr
  · unfold slabrealloc
    simp only [if_pos hptr]
    exact exists_not_meets_slaballoc zeroAll false hsound hshort (.inr hwrap)
  · have hptr' := not_or.mp hptr
    obtain ⟨base, obj, hfresh, hpage⟩ := heap.exists_fresh
    refine ⟨_, _, hfresh, ?_⟩
    have hlength := hlive.resolve_left hptr'.1
    have huses := uses_of_length hlength
    unfold slabrealloc
    rw [if_neg hptr, if_neg hsize]
    cases hbig : heap.findBig ptr with
    | some big =>
      -- the length becomes zero, and the old block is given up for the zero length pointer
      have hmem := mem_of_find?_eq_some hbig
      have hself : (heap.chunks.lookup big.self).isSome := (hsound _ big hmem).2
      simp only [alignUp_page_eq_zero hwrap]
      by_cases hsame : big.bytes = 0
      · rw [if_pos hsame]
        apply not_meets_of_length (length_of_findBig big hbig)
        rw [hsame]
        exact Nat.lt_of_le_of_lt (Nat.zero_le _) hshort
      · rw [if_neg hsame]
        have hzero : ((heap.unlink ptr).findBig zeroLengthPtr) = none :=
          (hsound.unlink ptr).findBig_zeroLengthPtr
        obtain ⟨s', hfree, hlength'⟩ :=
          zoneFree_zeroLengthPtr (s := ⟨heap.unlink ptr, zeroAll, [some base], [some obj]⟩) ptr
            (if big.bytes < 0 then big.bytes else 0) hzero hself
        have hnothing : slaballoc ⟨heap.unlink ptr, zeroAll, [some base], [some obj]⟩ 0 false =
            some (some zeroLengthPtr, ⟨heap.unlink ptr, zeroAll, [some base], [some obj]⟩) :=
          rfl
        rw [hnothing, bind_some]
        simp only [hfree]
        exact not_meets_of_length hlength' (Nat.lt_of_le_of_lt (Nat.zero_le _) hshort)
    | none =>
      have hlarge : ¬ size < zoneLimit := by
        rw [BitVec.not_lt, BitVec.le_def]
        have hlimit : zoneLimit.toNat = 16384 := rfl
        omega
      have hlookup := lookup_of_length hbig hptr'.2 hlength
      obtain ⟨chunkSize, hchunk⟩ := isSome_iff_exists.mp hlookup
      obtain ⟨nptr, s, len, hresult, hgranted, hlen⟩ :=
        slaballoc_succeeds zeroAll false hfresh hpage hsize
      obtain ⟨s', hfree, hlength'⟩ :=
        zoneFree_granted ptr (if chunkSize < size then chunkSize else size) hgranted huses
          hlookup
      have hfind : s.heap.findBig ptr = none := by
        rw [hgranted.findBig_of_uses huses, hbig]
      simp only [hchunk, bind_some, hlarge, false_and, if_false, hresult,
        slabfree_chunk hptr'.1 hptr'.2 hfind, hfree]
      apply not_meets_of_length hlength'
      rw [hlen hwrap]
      exact hshort

theorem exists_not_meets_posixMemalign
    (zeroAll : Bool) (hsound : heap.Sound) (hrefused : alignmentRefused alignment = false)
    (hwrap : 2 ^ 64 < size.toNat + alignment.toNat) :
    ∃ mmapAnswers chunkAnswers, Fresh heap mmapAnswers chunkAnswers ∧
      ¬ Meets (.posixMemalign alignment size) heap
        (posixMemalign ⟨heap, zeroAll, mmapAnswers, chunkAnswers⟩ alignment size) := by
  obtain ⟨base, obj, hfresh, _⟩ := heap.exists_fresh
  obtain ⟨k, hk, height⟩ := exists_two_pow_of_not_refused hrefused
  refine ⟨_, _, hfresh, ?_⟩
  have hhalf : alignment.toNat ≤ 2 ^ 63 := by
    rw [hk]
    apply Nat.pow_le_pow_right (by decide)
    have hlt := alignment.isLt
    rw [hk] at hlt
    have hk64 := (Nat.pow_lt_pow_iff_right (by decide : 1 < 2)).mp hlt
    omega
  have hlarge : ¬ size ≤ alignment := by
    rw [BitVec.not_le, BitVec.lt_def]
    omega
  have hzero : alignUp size (alignment - 1) = 0 := by
    apply alignUp_eq_zero (toNat_sub_one hk)
    rw [← hk]
    exact hwrap
  have hsmall : (0 : SizeT) < pageSize ∧ isPowerOfTwo 0 = true := by decide
  unfold posixMemalign
  simp only [hrefused, if_neg hlarge, hzero]
  rw [if_neg (by decide), if_pos hsmall]
  apply not_meets_of_length hsound.length_zeroLengthPtr
  simp only [Call.requested]
  omega

/-- A call keeps its contract for every answer of the system exactly when its length,
rounded up, does not pass the end of `size_t`. -/
theorem meets_iff_representable
    (heap : Heap) (zeroAll : Bool) (call : Call) (hsound : heap.Sound) (hvalid : call.Valid heap) :
    (∀ mmapAnswers chunkAnswers, Fresh heap mmapAnswers chunkAnswers →
      Meets call heap ((State.mk heap zeroAll mmapAnswers chunkAnswers).run call)) ↔
      call.Representable := by
  constructor
  · intro hmeets
    by_contra hnot
    have hbad : ∃ mmapAnswers chunkAnswers, Fresh heap mmapAnswers chunkAnswers ∧
        ¬ Meets call heap ((State.mk heap zeroAll mmapAnswers chunkAnswers).run call) := by
      cases call with
      | malloc size =>
        have hwrap : 2 ^ 64 < size.toNat + 4096 := Nat.lt_of_not_le hnot
        apply exists_not_meets_slaballoc zeroAll false hsound _ (.inr hwrap)
        simp only [Call.requested]
        omega
      | calloc number size =>
        have hwrap : 2 ^ 64 < number.toNat * size.toNat + 4096 := Nat.lt_of_not_le hnot
        apply exists_not_meets_slaballoc zeroAll true hsound
        · simp only [Call.requested]
          omega
        · have hlt := (number * size).isLt
          simp only [Call.requested]
          by_cases hlarge : 2 ^ 64 ≤ number.toNat * size.toNat
          · exact .inl ⟨by omega, hlarge⟩
          · rw [BitVec.toNat_mul, Nat.mod_eq_of_lt (Nat.lt_of_not_le hlarge)]
            exact .inr hwrap
      | realloc ptr size =>
        exact exists_not_meets_realloc zeroAll hsound hvalid (Nat.lt_of_not_le hnot)
      | posixMemalign alignment size =>
        simp only [Call.Representable, not_or, Bool.not_eq_true, Nat.not_le] at hnot
        exact exists_not_meets_posixMemalign zeroAll hsound hnot.1 hnot.2
    obtain ⟨mmapAnswers, chunkAnswers, hfresh, hfail⟩ := hbad
    exact hfail (hmeets _ _ hfresh)
  · intro hfits mmapAnswers chunkAnswers hfresh
    cases call with
    | malloc size => exact meets_slaballoc hsound hfresh hfits le_rfl
    | calloc number size =>
      have hproduct : (number * size).toNat = number.toNat * size.toNat := by
        rw [BitVec.toNat_mul]
        simp only [Call.Representable] at hfits
        exact Nat.mod_eq_of_lt (by omega)
      apply meets_slaballoc hsound hfresh
      · rw [hproduct]
        exact hfits
      · rw [hproduct]
        exact le_rfl
    | realloc ptr size => exact meets_realloc hsound hfresh hvalid hfits
    | posixMemalign alignment size => exact meets_posixMemalign hsound hfresh hfits

def oneChunk : Heap where
  bigallocArray _ := []
  chunks := [(0x10040, 64)]
  mem _ := 0

theorem oneChunk_sound : oneChunk.Sound := by
  intro i big hbig
  cases hbig

theorem realloc_of_a_chunk_meets :
    oneChunk.length 0x10040 = some 64 ∧
      ∀ mmapAnswers chunkAnswers, Fresh oneChunk mmapAnswers chunkAnswers →
        Meets (.realloc 0x10040 100000) oneChunk
          ((State.mk oneChunk false mmapAnswers chunkAnswers).run (.realloc 0x10040 100000)) := by
  have hlength : oneChunk.length 0x10040 = some 64 := rfl
  have hvalid : (Call.realloc 0x10040 100000).Valid oneChunk := by
    refine ⟨by decide, .inr ?_⟩
    rw [hlength]
    rfl
  refine ⟨hlength, ?_⟩
  apply (meets_iff_representable oneChunk false _ oneChunk_sound hvalid).mpr
  simp only [Call.Representable]
  decide

/-- `calloc(2^32, 2^32)` and `malloc(SIZE_MAX)` succeed with nothing and with a page. -/
theorem calloc_and_malloc_short :
    (∃ s, (State.mk oneChunk false [] []).run (.calloc 0x100000000 0x100000000) =
        some (.ok zeroLengthPtr, s) ∧ s.heap.length zeroLengthPtr = some 0) ∧
      (∃ mmapAnswers chunkAnswers, Fresh oneChunk mmapAnswers chunkAnswers ∧
        ¬ Meets (.malloc 0xffffffffffffffff) oneChunk
          ((State.mk oneChunk false mmapAnswers chunkAnswers).run (.malloc 0xffffffffffffffff))) ∧
      ¬ Meets (.calloc 0x100000000 0x100000000) oneChunk
        ((State.mk oneChunk false [] []).run (.calloc 0x100000000 0x100000000)) := by
  have hcalloc : (State.mk oneChunk false [] []).run (.calloc 0x100000000 0x100000000) =
      some (report (some zeroLengthPtr, State.mk oneChunk false [] [])) := rfl
  refine ⟨⟨_, hcalloc, rfl⟩, ?_, ?_⟩
  · apply exists_not_meets_slaballoc false false oneChunk_sound
    · decide
    · exact .inr (by decide)
  · have hlength : (State.mk oneChunk false [] []).heap.length zeroLengthPtr = some 0 := rfl
    rw [hcalloc]
    exact not_meets_of_length hlength (by decide)

end DragonFly.Nmalloc
