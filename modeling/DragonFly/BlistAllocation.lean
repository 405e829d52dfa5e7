import DragonFly.BlistHints

/-!
# Allocating from a blist

An allocation takes a run of blocks that were all free, or fails and leaves the
free blocks as they are.  A search that fails has seen every leaf that ends after
`blkat`.
-/

namespace DragonFly.Kern

open BitRange Finset BitVec Memory

def taken (count : ℕ) : Option ℕ → Finset ℕ
  | none => ∅
  | some blk => Ico blk (blk + count)

/-- The outcome of allocating `count` blocks from a node. -/
structure Allocation (root root' : Memory) (level scan blk n count : ℕ) (blkat : ℤ)
    (free : Finset ℕ) (result : Option ℕ) : Prop where
  node : Node root' level scan blk n (free \ taken count result)
  frame : Frame root root' level scan
  subset : taken count result ⊆ free
  noRun : result = none → NoRun free count blkat

/-! ## Leaves -/

variable {mask orig : BitVec 32}

theorem lowestBit_spec
    {exponent : ℕ} {r : ℕ} (hmask : ∀ i, mask.getLsbD i = decide (2 * i < 2 ^ exponent))
    (hbit : ∃ i < 2 ^ exponent, orig.getLsbD i = true) :
    ∃ i, lowestBit exponent mask orig r = r + i ∧ orig.getLsbD i = true := by
  induction exponent generalizing mask orig r with
  | zero =>
    obtain ⟨i, hi, hset⟩ := hbit
    have hzero : i = 0 := by omega
    subst hzero
    exact ⟨0, rfl, hset⟩
  | succ exponent ih =>
    have hpow : 2 ^ (exponent + 1) = 2 * 2 ^ exponent := by ring
    have hmask' : ∀ i, (mask >>> (2 ^ exponent / 2)).getLsbD i = decide (2 * i < 2 ^ exponent) := by
      intro i
      rw [getLsbD_ushiftRight, hmask, decide_eq_decide, hpow]
      cases exponent with
      | zero => omega
      | succ e =>
        omega
    unfold lowestBit
    by_cases hlow : orig &&& mask = 0
    · simp only [if_pos hlow]
      have hzero : ∀ i < 2 ^ exponent, orig.getLsbD i = false := by
        intro i hi
        have hand := congrArg (fun word => word.getLsbD i) hlow
        simp only [getLsbD_and, hmask] at hand
        have hlt : 2 * i < 2 ^ (exponent + 1) := by omega
        simpa [hlt] using hand
      obtain ⟨i, hi, hset⟩ := hbit
      have hge : 2 ^ exponent ≤ i := by
        by_contra hlt
        rw [hzero i (by omega)] at hset
        exact Bool.false_ne_true hset
      have hshift : ∃ k < 2 ^ exponent, (orig >>> 2 ^ exponent).getLsbD k = true := by
        refine ⟨i - 2 ^ exponent, by omega, ?_⟩
        rw [getLsbD_ushiftRight, Nat.add_sub_cancel' hge]
        exact hset
      obtain ⟨k, hk, hkset⟩ := ih (r := r + 2 ^ exponent) hmask' hshift
      refine ⟨2 ^ exponent + k, by rw [hk]; ring, ?_⟩
      rwa [getLsbD_ushiftRight] at hkset
    · simp only [if_neg hlow]
      apply ih hmask'
      by_contra hnone
      apply hlow
      apply eq_of_getLsbD_eq
      intro i _
      rw [getLsbD_and, hmask]
      by_cases hi : i < 2 ^ exponent
      · cases hset : orig.getLsbD i
        · simp
        · exact absurd ⟨i, hi, hset⟩ hnone
      · have hge : ¬2 * i < 2 ^ (exponent + 1) := by omega
        simp [hge]

variable {j count : ℕ}

theorem bits_shiftLeft_one
    (hmask : bits mask = Finset.Ico j (j + count)) (hstop : j + 1 + count ≤ 32) :
    bits (mask <<< 1) = Finset.Ico (j + 1) (j + 1 + count) := by
  ext i
  have hmem := Finset.ext_iff.mp hmask (i - 1)
  rw [mem_bits, Finset.mem_Ico] at hmem
  rw [mem_bits, mem_Ico, getLsbD_shiftLeft]
  by_cases hi : i < 1
  · simp [hi]
    omega
  · simp only [hi, decide_false, Bool.not_false, Bool.and_true,
      Bool.and_eq_true, decide_eq_true_eq, hmem]
    omega

theorem findRun_spec {mask' : BitVec 32} {left j' : ℕ} (hmask : bits mask = Ico j (j + count))
    (hleft : j + count + left ≤ 33) (hfound : findRun orig left mask j = some (j', mask')) :
    bits mask' = Ico j' (j' + count) ∧ bits mask' ⊆ bits orig ∧ j' + count ≤ 32 := by
  induction left generalizing mask j with
  | zero => simp [findRun] at hfound
  | succ left ih =>
    unfold findRun at hfound
    split_ifs at hfound with hall
    · rw [Option.some.injEq, Prod.mk.injEq] at hfound
      obtain ⟨rfl, rfl⟩ := hfound
      refine ⟨hmask, ?_, by omega⟩
      rw [← hall, bits_and]
      exact inter_subset_left
    · have hmore : left ≠ 0 := by
        rintro rfl
        simp [findRun] at hfound
      exact ih (bits_shiftLeft_one hmask (by omega)) (by omega) hfound

theorem findRun_eq_none
    {left : ℕ} (hmask : bits mask = Ico j (j + count)) (hleft : j + count + left = 33)
    (hnone : findRun orig left mask j = none) {i : ℕ} (hj : j ≤ i) (hi : i + count ≤ 32) :
    ¬Ico i (i + count) ⊆ bits orig := by
  induction left generalizing mask j with
  | zero => omega
  | succ left ih =>
    unfold findRun at hnone
    split_ifs at hnone with hall
    by_cases hij : i = j
    · subst hij
      intro hsub
      apply hall
      apply eq_of_getLsbD_eq
      intro k _
      rw [getLsbD_and]
      cases hbit : mask.getLsbD k with
      | false => simp
      | true =>
        have hmem : k ∈ bits orig := by
          apply hsub
          rw [← hmask, mem_bits]
          exact hbit
        rw [mem_bits] at hmem
        rw [hmem, Bool.and_self]
    · have hstop : j + 1 + count ≤ 32 := by omega
      exact ih (bits_shiftLeft_one hmask hstop) (by omega) hnone (by omega)

variable {root : Memory} {scan blk n : ℕ} {free : Finset ℕ}

theorem Rep.leaf_sdiff {root' : Memory} (h : Rep root 0 scan blk n free)
    (hbits : bits (root' scan).bmuBitmap = bits (root scan).bmuBitmap \ Ico j (j + count)) :
    Rep root' 0 scan blk n (free \ Ico (blk + j) (blk + j + count)) := by
  obtain ⟨hsub, hmem⟩ := h
  refine ⟨sdiff_subset.trans hsub, ?_⟩
  intro b
  rw [mem_sdiff, hmem, hbits, mem_sdiff, mem_Ico, mem_Ico]
  constructor
  · rintro ⟨⟨hle, hbit⟩, hout⟩
    exact ⟨hle, hbit, by omega⟩
  · rintro ⟨hle, hbit, hout⟩
    exact ⟨⟨hle, hbit⟩, by omega⟩

theorem LeafRun.bits_of_rep
    {start : ℕ} (hrep : Rep root 0 scan blk n free) (h : LeafRun free start count) :
    Ico (start - blk) (start - blk + count) ⊆ bits (root scan).bmuBitmap := by
  intro i hi
  rw [mem_Ico] at hi
  by_cases hcount : count = 0
  · omega
  · have hstart : start ∈ free := by
      apply h.isFree
      rw [mem_Ico]
      omega
    have hblk := ((hrep.2 start).mp hstart).1
    have hmem : blk + i ∈ free := by
      apply h.isFree
      rw [mem_Ico]
      omega
    have hbit := ((hrep.2 (blk + i)).mp hmem).2
    rwa [Nat.add_sub_cancel_left] at hbit

section Leaves

variable {root : Memory} {scan blk n count : ℕ} {blkat : ℤ} {free : Finset ℕ}

theorem allocation_run (h : Node root 0 scan blk n free) (hmask : bits mask = Ico j (j + count))
    (hsub : bits mask ⊆ bits (root scan).bmuBitmap) :
    Allocation root
      (root.modify scan fun node => { node with bmuBitmap := node.bmuBitmap &&& ~~~mask })
      0 scan blk n count blkat free (some (blk + j)) := by
  refine ⟨⟨?_, ?_, ?_⟩, frame_modify root 0 scan _, ?_, nofun⟩
  · unfold Shape
    rw [modify_same]
    exact h.shape
  · refine h.rep.leaf_sdiff ?_
    rw [modify_same, bits_and_not, hmask]
  · unfold Hinted
    rw [modify_same]
    exact h.hinted.hint.mono sdiff_subset
  · intro b hb
    rw [taken, mem_Ico] at hb
    rw [h.rep.2 b]
    refine ⟨by omega, hsub ?_⟩
    rw [hmask, mem_Ico]
    omega

theorem allocation_none {hint : ℤ} (h : Node root 0 scan blk n free)
    (hnone : ∀ start, ¬LeafRun free start count) (hnonneg : 0 ≤ hint)
    (hhint : HintSound hint free) :
    Allocation root (root.modify scan fun node => { node with bmBighint := hint })
      0 scan blk n count blkat free none := by
  have hrep := h.rep
  refine ⟨?_, frame_modify root 0 scan _, empty_subset _, ?_⟩
  · rw [taken, sdiff_empty]
    refine ⟨?_, ?_, ?_⟩
    · unfold Shape
      rw [modify_same]
      exact hnonneg
    · unfold Rep at hrep ⊢
      rw [modify_same]
      exact hrep
    · unfold Hinted
      rw [modify_same]
      exact hhint
  · intro _ start hrun
    exact absurd hrun (hnone start)

theorem bits_firstMask (hmax : count ≤ 32) :
    bits (BitVec.allOnes 32 >>> (blistBmapRadix - count)) = Ico 0 (0 + count) := by
  ext k
  rw [mem_bits, mem_Ico, getLsbD_ushiftRight, getLsbD_allOnes, decide_eq_true_eq]
  simp only [blistBmapRadix]
  omega

theorem bits_single {i : ℕ} (hlt : i < 32) : bits (1#32 <<< i) = Ico i (i + 1) := by
  ext k
  rw [mem_bits, mem_Ico, getLsbD_shiftLeft, getLsbD_one]
  simp
  omega

theorem lowestBit_five (hnonzero : ¬orig = 0) :
    orig.getLsbD (lowestBit 5 (BitVec.allOnes 32 >>> (blistBmapRadix / 2)) orig 0) = true := by
  have hbit : ∃ i < 2 ^ 5, orig.getLsbD i = true := by
    by_contra hnone
    apply hnonzero
    apply eq_of_getLsbD_eq
    intro i hi
    cases hset : orig.getLsbD i
    · simp
    · exact absurd ⟨i, hi, hset⟩ hnone
  have hmask : ∀ i, (BitVec.allOnes 32 >>> (blistBmapRadix / 2)).getLsbD i =
      decide (2 * i < 2 ^ 5) := by
    intro i
    rw [getLsbD_ushiftRight, getLsbD_allOnes, decide_eq_decide]
    simp only [blistBmapRadix]
    omega
  obtain ⟨i, hi, hset⟩ := lowestBit_spec (r := 0) hmask hbit
  rw [hi, Nat.zero_add]
  exact hset

theorem free_eq_empty_of_bitmap
    (h : Node root 0 scan blk n free) (hzero : (root scan).bmuBitmap = 0) : free = ∅ := by
  apply eq_empty_of_forall_notMem
  intro b hb
  have hbit := ((h.rep.2 b).mp hb).2
  rw [bits_eq_empty.mpr hzero] at hbit
  exact notMem_empty _ hbit

theorem not_leafRun_empty (hpos : 1 ≤ count) (start : ℕ) : ¬LeafRun ∅ start count := by
  intro hrun
  have hcard := hrun.count_le
  rw [card_empty] at hcard
  omega

theorem not_leafRun_of_findRun
    (h : Node root 0 scan blk n free) (hn : n ≤ radix 0) (halign : 32 ∣ blk)
    (hpos : 1 ≤ count) (hmax : count ≤ 32)
    (hfound : findRun (root scan).bmuBitmap (blistBmapRadix - count + 1)
      (BitVec.allOnes 32 >>> (blistBmapRadix - count)) 0 = none) (start : ℕ) :
    ¬LeafRun free start count := by
  intro hrun
  have hlength : 0 + count + (blistBmapRadix - count + 1) = 33 := by
    simp only [blistBmapRadix]
    omega
  have hstart : start ∈ free := by
    apply hrun.isFree
    rw [mem_Ico]
    omega
  have hrange := mem_Ico.mp (h.subset hstart)
  have hstop : start - blk + count ≤ 32 := by
    have hend := leafEnd_le 0 halign (hrange.2.trans_le (Nat.add_le_add_left hn blk))
    have hle := hrun.stop_le_leafEnd
    have hradix : radix 0 = 32 := rfl
    omega
  exact findRun_eq_none (bits_firstMask hmax) hlength hfound (Nat.zero_le _) hstop
    (hrun.bits_of_rep h.rep)

theorem blstLeafAlloc_spec (h : Node root 0 scan blk n free) (hn : n ≤ radix 0) (halign : 32 ∣ blk)
    (hpos : 1 ≤ count) (hmax : count ≤ 32) :
    Allocation root (blstLeafAlloc root scan blk count).1 0 scan blk n count blkat
      free (blstLeafAlloc root scan blk count).2 := by
  unfold blstLeafAlloc
  by_cases hzero : (root scan).bmuBitmap = 0
  · simp only [if_pos hzero]
    have hempty := free_eq_empty_of_bitmap h hzero
    subst hempty
    exact allocation_none h (not_leafRun_empty hpos) le_rfl (hintSound_of_card le_rfl)
  · simp only [if_neg hzero]
    by_cases hone : count = 1
    · subst hone
      simp only [if_true]
      have hset := lowestBit_five hzero
      have hsingle := bits_single (lt_of_getLsbD hset)
      refine allocation_run h hsingle ?_
      rw [hsingle]
      intro k hk
      rw [mem_Ico] at hk
      obtain rfl : k = lowestBit 5 (BitVec.allOnes 32 >>> (blistBmapRadix / 2))
          (root scan).bmuBitmap 0 := by omega
      rw [mem_bits]
      exact hset
    · have hle : count ≤ blistBmapRadix := hmax
      simp only [if_neg hone, if_pos hle]
      cases hfound : findRun (root scan).bmuBitmap (blistBmapRadix - count + 1)
          (BitVec.allOnes 32 >>> (blistBmapRadix - count)) 0 with
      | none =>
        have hnone := not_leafRun_of_findRun h hn halign hpos hmax hfound
        exact allocation_none h hnone (by omega) (hintSound_pred hnone)
      | some found =>
        obtain ⟨j, mask⟩ := found
        obtain ⟨hmask, hsub, -⟩ := findRun_spec (bits_firstMask hmax)
          (by simp only [blistBmapRadix]; omega) hfound
        exact allocation_run h hmask hsub

end Leaves

/-! ## Meta nodes -/

def Allocates (alloc : Memory → ℕ → ℕ → Option (Memory × Option ℕ))
    (level count : ℕ) (blkat : ℤ) : Prop :=
  ∀ root scan blk n free, n ≤ radix level → 32 ∣ blk → Node root level scan blk n free →
    ∃ root' result, alloc root scan blk = some (root', result) ∧
      Allocation root root' level scan blk n count blkat free result

theorem noRun_of_skipped {hint blkat : ℤ} {level : ℕ} (halign : 32 ∣ blk) (hpos : 1 ≤ count)
    (hhint : HintSound hint (free ∩ childRange level blk j))
    (hskip : ¬((count : ℤ) ≤ hint ∧ ((blk + j * radix level : ℕ) + radix level : ℤ) > blkat)) :
    NoRun (free ∩ childRange level blk j) count blkat := by
  intro start hrun
  have hcount := hhint start count hrun hpos
  have hstart : start ∈ childRange level blk j := by
    apply inter_subset_right
    apply hrun.isFree
    rw [mem_Ico]
    omega
  have hend := leafEnd_le level (dvd_childBlock halign j) (mem_childRange.mp hstart).2
  have hpast : ((blk + j * radix level : ℕ) + radix level : ℤ) ≤ blkat := by
    by_contra hlate
    exact hskip ⟨hcount, by omega⟩
  exact_mod_cast (Int.ofNat_le.mpr hend).trans (by exact_mod_cast hpast)

theorem no_leafRun_of_noRun
    {blkat : ℤ} (hsub : free ⊆ Ico blk (blk + n)) (hpos : 1 ≤ count) (hblkat : blkat ≤ blk)
    (h : NoRun free count blkat) (start : ℕ) : ¬LeafRun free start count := by
  intro hrun
  have hend := h start hrun
  have hstop := hrun.stop_le_leafEnd
  have hstart : start ∈ free := by
    apply hrun.isFree
    rw [mem_Ico]
    omega
  have hrange := mem_Ico.mp (hsub hstart)
  omega

theorem noRun_of_children
    {level : ℕ} {blkat : ℤ} (hsub : free ⊆ Ico blk (blk + n)) (halign : 32 ∣ blk) (hpos : 1 ≤ count)
    (h : ∀ j < children level n, NoRun (free ∩ childRange level blk j) count blkat) :
    NoRun free count blkat := by
  intro start hrun
  obtain ⟨j, hj, hchild⟩ := hrun.in_child level hsub halign hpos
  exact h j hj start hchild

section Meta

variable {alloc : Memory → ℕ → ℕ → Option (Memory × Option ℕ)} {level count : ℕ} {blkat : ℤ}
  {root : Memory} {scan blk n : ℕ} {free : Finset ℕ}

theorem allocScan_spec (halloc : Allocates alloc level count blkat) (hpos : 1 ≤ count)
    (hcount : count ≤ radix level) (hn : n ≤ radix (level + 1)) (halign : 32 ∣ blk)
    (left : ℕ) (hleft : left + j = 16) (hj : j ≤ children level n)
    (hsub : Sub root level scan blk n free)
    (hpassed : ∀ k < j, NoRun (free ∩ childRange level blk k) count blkat) :
    ∃ root' result, allocScan alloc level blkat count left root (child level scan j)
          (blk + j * radix level) = some (root', result) ∧
        Sub root' level scan blk n (free \ taken count result) ∧
        Frame root root' (level + 1) scan ∧ root' scan = root scan ∧ taken count result ⊆ free ∧
        (result = none → ∀ k < children level n,
          NoRun (free ∩ childRange level blk k) count blkat) := by
  have hle := children_le hn
  induction left generalizing j root with
  | zero =>
    refine ⟨root, none, rfl, ?_, Frame.refl _ _ _, rfl, empty_subset _, ?_⟩
    · simpa [taken] using hsub
    · exact fun _ k hk => hpassed k (by omega)
  | succ left ih =>
    by_cases hlast : j = children level n
    · have hterm : (root (child level scan j)).bmBighint = -1 := by
        rw [hlast]
        exact hsub.terminator (by simp only [blistMetaRadix]; omega)
      refine ⟨root, none, ?_, ?_, Frame.refl _ _ _, rfl, empty_subset _, ?_⟩
      · unfold allocScan
        rw [if_neg (by omega), if_pos hterm]
      · simpa [taken] using hsub
      · exact fun _ k hk => hpassed k (by omega)
    · have hlt : j < children level n := by omega
      have hnext : child level scan j + nextSkip level = child level scan (j + 1) :=
        (child_succ level scan j).symm
      have hblk : blk + j * radix level + radix level = blk + (j + 1) * radix level := by
        ring
      have hpassedNext : NoRun (free ∩ childRange level blk j) count blkat →
          ∀ k < j + 1, NoRun (free ∩ childRange level blk k) count blkat := by
        intro hnow k hk
        by_cases hkj : k = j
        · rw [hkj]
          exact hnow
        · exact hpassed k (by omega)
      have hchild := hsub.node j hlt
      have hhint := hchild.shape.bighint
      unfold allocScan
      split_ifs with hfits hterm hlarge
      · obtain ⟨root1, result, hsome, hallocated⟩ := halloc root (child level scan j) _ _ _
          (childBlocks_le level n j) (dvd_childBlock halign j) hchild
        have hrange : taken count result ⊆ childRange level blk j :=
          hallocated.subset.trans inter_subset_right
        have hsub1 : Sub root1 level scan blk n (free \ taken count result) := by
          refine hsub.child_changed hlt hallocated.frame ?_ ?_
          · rw [sdiff_inter_right_comm]
            exact hallocated.node
          · intro b hb
            rw [mem_sdiff, and_iff_left]
            exact fun hmem => hb (hrange hmem)
        have hframe := hallocated.frame.of_child (by omega : j < 16)
        have hscan := hallocated.frame.scan_of_child
        simp only [hsome]
        cases result with
        | some r =>
          exact ⟨root1, some r, rfl, hsub1, hframe, hscan,
            hallocated.subset.trans inter_subset_left, by simp⟩
        | none =>
          rw [taken, sdiff_empty] at hsub1
          obtain ⟨root', result, hscan', hsub', hframe', hsame, hrest⟩ :=
            ih (by omega : left + (j + 1) = 16) hlt hsub1
              (hpassedNext (hallocated.noRun rfl))
          rw [hnext, hblk]
          exact ⟨root', result, hscan', hsub', hframe.trans hframe', hsame.trans hscan, hrest⟩
      · omega
      · omega
      · rw [hnext, hblk]
        exact ih (by omega : left + (j + 1) = 16) hlt hsub
          (hpassedNext (noRun_of_skipped halign hpos hchild.hinted.hint hfits))

theorem card_taken (count : ℕ) (blk : ℕ) : (taken count (some blk)).card = count := by
  simp [taken]

/-- The children of a meta node that is not ALL-ALLOCATED, initialized if it
was ALL-FREE. -/
theorem expand_free (f : Blmeta → Blmeta) (hf : ∀ node, (f node).bmuAvail = node.bmuAvail ∧
      (0 ≤ node.bmBighint → 0 ≤ (f node).bmBighint) ∧
      (HintSound node.bmBighint free → HintSound (f node).bmBighint free))
    (hn : n ≤ radix (level + 1)) (h : Node root (level + 1) scan blk n free) (hne : free ≠ ∅) :
    ∃ root1, (if (root scan).bmuAvail = radix (level + 1) then
        initSublevel (setFree level) (nextSkip level) blistMetaRadix (root.modify scan f) (scan + 1)
      else root) = root1 ∧ Sub root1 level scan blk n free ∧ Frame root root1 (level + 1) scan ∧
      (root1 scan).bmuAvail = free.card ∧ 0 ≤ (root1 scan).bmBighint ∧
      HintSound (root1 scan).bmBighint free := by
  have havail := h.avail
  by_cases hfull : free.card = radix (level + 1)
  · have hmodify := root.modify_same scan f
    obtain ⟨hsub1, hframe1, hscan1⟩ :=
      Sub.initFree hn (h.subShape.congr hn (subAgree_modify root level scan f)) h.subset hfull
    refine ⟨_, if_pos (by rw [havail, hfull]), hsub1,
      (frame_modify root (level + 1) scan f).trans hframe1, ?_, ?_, ?_⟩
    · rw [hscan1, hmodify, (hf _).1, havail]
    · rw [hscan1, hmodify]
      exact (hf _).2.1 h.shape.bighint
    · rw [hscan1, hmodify]
      exact (hf _).2.2 h.hinted.hint
  · have hne' : ¬(root scan).bmuAvail = radix (level + 1) := by
      rw [havail]
      exact_mod_cast hfull
    exact ⟨root, if_neg hne', h.sub hne hfull, Frame.refl _ _ _, havail, h.shape.bighint,
      h.hinted.hint⟩

theorem blstMetaAlloc_spec
    (halloc : Allocates alloc level count blkat) (hpos : 1 ≤ count) (hmax : count ≤ 32) :
    Allocates (fun root scan blk => blstMetaAlloc alloc level root scan blkat blk count)
      (level + 1) count blkat := by
  intro root scan blk n free hn halign hnode
  have havail := hnode.avail
  have hcount : count ≤ radix level := hmax.trans (bmapRadix_le_radix level)
  simp only [blstMetaAlloc]
  by_cases hempty : free = ∅
  · subst hempty
    have hzero : (root scan).bmuAvail = 0 := havail
    rw [if_pos hzero]
    refine ⟨_, none, rfl, ?_, frame_modify root _ scan _, empty_subset _, ?_⟩
    · rw [taken, sdiff_empty]
      apply node_empty (hnode.subShape.congr hn (subAgree_modify root level scan _))
      · rw [modify_same]
        exact hzero
      · rw [modify_same]
    · exact fun _ start hrun => absurd hrun (not_leafRun_empty hpos start)
  · have hnonzero : ¬(root scan).bmuAvail = 0 := by
      rw [havail]
      simpa using hempty
    rw [if_neg hnonzero]
    have hlarge : HintSound (radix (level + 1) : ℕ) free :=
      hintSound_of_radix free (by exact_mod_cast bmapRadix_le_radix (level + 1))
    obtain ⟨root1, hroot1, hsub1, hframe1, havail1, hnonneg1, hhint1⟩ :=
      expand_free (fun node => { node with bmBighint := (radix (level + 1) : ℕ) })
        (fun _ => ⟨rfl, fun _ => Int.natCast_nonneg _, fun _ => hlarge⟩) hn hnode hempty
    rw [hroot1]
    obtain ⟨root2, result, hscan2, hsub2, hframe2, hsame2, htaken, hnone⟩ :=
      allocScan_spec halloc hpos hcount hn halign 16 (by rfl : 16 + 0 = 16) (Nat.zero_le _)
        hsub1 (fun k hk => absurd hk (Nat.not_lt_zero k))
    have hfirst : child level scan 0 = scan + 1 := by
      simp [child]
    rw [hfirst, Nat.zero_mul, Nat.add_zero] at hscan2
    have hscan2' : allocScan alloc level blkat count blistMetaRadix root1 (scan + 1) blk =
        some (root2, result) := hscan2
    simp only [hscan2']
    have hframe := hframe1.trans hframe2
    have hsubset : free \ taken count result ⊆ Ico blk (blk + n) := sdiff_subset.trans hnode.subset
    cases result with
    | some r =>
      have hcard := card_sdiff_add_card_eq_card htaken
      rw [card_taken] at hcard
      refine ⟨_, some r, rfl, ?_, hframe.trans (frame_modify root2 _ scan _), htaken, by simp⟩
      apply (hsub2.modify hn _).toNode hsubset
      · rw [modify_same, hsame2, havail1]
        simp only
        omega
      · rw [modify_same, hsame2, havail1]
        simp only
        split_ifs <;> omega
      · rw [modify_same, hsame2, havail1]
        simp only
        split_ifs
        · apply hintSound_of_card
          omega
        · exact hhint1.mono sdiff_subset
    | none =>
      have hnoRun : NoRun free count blkat := noRun_of_children hnode.subset halign hpos (hnone rfl)
      refine ⟨_, none, rfl, ?_, hframe.trans (frame_modify root2 _ scan _), htaken, fun _ => hnoRun⟩
      apply (hsub2.modify hn _).toNode hsubset
      · rw [modify_same, hsame2, taken, sdiff_empty]
        split_ifs <;> exact havail1
      · rw [modify_same, hsame2]
        split_ifs
        · simp only
          omega
        · exact hnonneg1
      · rw [modify_same, hsame2, taken, sdiff_empty]
        split_ifs with hhintok
        · exact hintSound_pred (no_leafRun_of_noRun hnode.subset hpos hhintok.1 hnoRun)
        · exact hhint1

end Meta

theorem blstAlloc_spec (blkat : ℤ) (hpos : 1 ≤ count) (hmax : count ≤ 32)
    (level : ℕ) : Allocates (blstAlloc blkat count level) level count blkat := by
  induction level with
  | zero =>
    intro root scan blk n free hn halign hnode
    exact ⟨_, _, rfl, blstLeafAlloc_spec hnode hn halign hpos hmax⟩
  | succ level ih => exact blstMetaAlloc_spec ih hpos hmax

end DragonFly.Kern
