import DragonFly.AlistInvariant
import DragonFly.BlistAllocation

/-!
# Allocating aligned runs

An allocation takes an aligned run of free blocks at or behind the start it is
given.  With sound hints it fails only if there is no such run, provided that the
search does not begin in the middle of a leaf it then gives up.
-/

namespace DragonFly.Alst

open BitRange Finset BitVec
open Kern (radix skip nextSkip child childRange mem_childRange radix_succ
  radix_pos bmapRadix_le_radix scan_lt_child Agree Frame lowestBit lowestBit_spec)

/-- A search from `start` does not lower the hint of a leaf it has seen only the
end of. -/
def Safe (free : Finset ℕ) (start count : ℕ) : Prop :=
  32 ≤ count ∨ start < 32 ∨ (∃ b, count ∣ b ∧ start ≤ b ∧ b < start / 32 * 32 + 32 ∧
      Ico b (b + count) ⊆ free) ∨
    ∀ x ∈ free, start / 32 * 32 ≤ x → start ≤ x

/-- What an allocation from a node with the free blocks `free` does; `sure` says
that it fails only if there is no run. -/
structure AllocResult (hinted sure : Prop) (blocks : ℕ) (root : Memory)
    (level scan blk start count : ℕ) (free : Finset ℕ)
    (res : Memory × Option ℕ) : Prop where
  frame : Frame root res.1 level scan
  shape : Shape blocks res.1 level scan blk
  failed : res.2 = none → Sound hinted res.1 level scan blk free ∧
    (sure → ∀ b, count ∣ b → start ≤ b → ¬Ico b (b + count) ⊆ free)
  taken : ∀ r, res.2 = some r → start ≤ r ∧ count ∣ r ∧ Ico r (r + count) ⊆ free ∧
    Sound hinted res.1 level scan blk (free \ Ico r (r + count))

variable {free : Finset ℕ} {level scan blk start count blocks j : ℕ} {root root' : Memory}
  {hinted sure : Prop} {mask : BitVec 32}

theorem AllocResult.of_none
    (hframe : Frame root root' level scan) (hshape : Shape blocks root' level scan blk)
    (hsound : Sound hinted root' level scan blk free)
    (hnone : sure → ∀ b, count ∣ b → start ≤ b → ¬Ico b (b + count) ⊆ free) :
    AllocResult hinted sure blocks root level scan blk start count free (root', none) := by
  refine ⟨hframe, hshape, fun _ => ⟨hsound, hnone⟩, ?_⟩
  intro r hr
  cases hr

theorem AllocResult.of_some (hframe : Frame root root' level scan)
    (hshape : Shape blocks root' level scan blk) (hstart : start ≤ r) (hdvd : count ∣ r)
    (hrun : Ico r (r + count) ⊆ free)
    (hsound : Sound hinted root' level scan blk (free \ Ico r (r + count))) :
    AllocResult hinted sure blocks root level scan blk start count free (root', some r) := by
  refine ⟨hframe, hshape, ?_, ?_⟩
  · intro hnone
    cases hnone
  · intro r' hr
    rw [Option.some.injEq] at hr
    rw [← hr]
    exact ⟨hstart, hdvd, hrun, hsound⟩

theorem AllocResult.weaken
    (h : AllocResult hinted sure blocks root level scan blk start count free res)
    (hsure : sure' → sure) :
    AllocResult hinted sure' blocks root level scan blk start count free res := by
  refine ⟨h.frame, h.shape, fun hnone => ?_, h.taken⟩
  exact ⟨(h.failed hnone).1, fun hs => (h.failed hnone).2 (hsure hs)⟩

/-! ## Leaves -/

theorem getLsbD_lowMask (hn : n < 32) : ((1#32 <<< n) - 1).getLsbD i = decide (i < n) := by
  have hpow : 2 ^ n < 2 ^ 32 := Nat.pow_lt_pow_right (by norm_num) hn
  have hpos : 1 ≤ 2 ^ n := Nat.one_le_two_pow
  have hshift : (1#32 <<< n).toNat = 2 ^ n := by
    rw [toNat_shiftLeft, Nat.shiftLeft_eq]
    simp only [toNat_ofNat, Nat.reducePow, Nat.one_mod, one_mul]
    exact Nat.mod_eq_of_lt (by simpa using hpow)
  have hle : (1#32) ≤ 1#32 <<< n := by
    rw [le_def, hshift]
    simpa using hpos
  have hsub : ((1#32 <<< n) - 1).toNat = 2 ^ n - 1 := by
    have h := toNat_sub_of_le hle
    rw [hshift] at h
    exact h
  rw [BitVec.getLsbD, hsub, Nat.testBit_two_pow_sub_one]

theorem mem_bits_leafOrig (hstart : start < blk + alistBmapRadix) :
    i ∈ bits (leafOrig bitmap blk start) ↔ i ∈ bits bitmap ∧ start ≤ blk + i := by
  have hradix : alistBmapRadix = 32 := rfl
  unfold leafOrig
  split_ifs with hin
  · rw [mem_bits, mem_bits, getLsbD_and, getLsbD_not, getLsbD_lowMask (by omega)]
    by_cases hi : bitmap.getLsbD i = true
    · have hlt := lt_of_getLsbD hi
      simp [hi]
      omega
    · simp [hi]
  · have hle : start ≤ blk + i := by omega
    simp [hle]

theorem bits_shiftLeft
    (hmask : bits mask = Finset.Ico j (j + count)) (hfit : j + step + count ≤ 32) :
    bits (mask <<< step) = Finset.Ico (j + step) (j + step + count) := by
  ext i
  have hmem := Finset.ext_iff.mp hmask (i - step)
  rw [mem_bits, Finset.mem_Ico] at hmem
  rw [mem_bits, mem_Ico, getLsbD_shiftLeft]
  by_cases hi : i < step
  · simp [hi]
    omega
  · simp only [hi, decide_false, Bool.not_false, Bool.and_true,
      Bool.and_eq_true, decide_eq_true_eq, hmem]
    omega

theorem and_eq_right_iff : orig &&& mask = mask ↔ bits mask ⊆ bits orig := by
  constructor
  · intro hall
    rw [← hall, bits_and]
    exact inter_subset_left
  · intro hsub
    apply eq_of_getLsbD_eq
    intro i _
    rw [getLsbD_and]
    cases hi : mask.getLsbD i with
    | false => simp
    | true =>
      rw [mem_bits.mp (hsub (mem_bits.mpr hi))]
      rfl

theorem add_le_of_dvd_of_lt {c a b : ℕ} (ha : c ∣ a) (hb : c ∣ b) (h : a < b) : a + c ≤ b := by
  obtain ⟨t, rfl⟩ := ha
  obtain ⟨u, rfl⟩ := hb
  have hlt : t < u := Nat.lt_of_mul_lt_mul_left h
  have hmul := Nat.mul_le_mul_left c hlt
  rw [Nat.mul_succ] at hmul
  exact hmul

theorem leafRun_spec (orig : BitVec 32) (fuel : ℕ) (hpos : 0 < count) (hmax : count ≤ 32)
    (hmask : j + count ≤ 32 → bits mask = Ico j (j + count))
    (hj : count ∣ j) (hfuel : 32 ≤ j + fuel * count) :
    (∀ j' mask', leafRun orig count fuel mask j = some (j', mask') → count ∣ j' ∧ j' + count ≤ 32 ∧
        bits mask' = Ico j' (j' + count) ∧ Ico j' (j' + count) ⊆ bits orig) ∧
      (leafRun orig count fuel mask j = none → ∀ j', j ≤ j' → count ∣ j' → j' + count ≤ 32 →
          ¬Ico j' (j' + count) ⊆ bits orig) := by
  have hradix : alistBmapRadix = 32 := rfl
  induction fuel generalizing mask j with
  | zero =>
    rw [Nat.zero_mul, Nat.add_zero] at hfuel
    refine ⟨fun j' mask' h => by simp [leafRun] at h, ?_⟩
    intro _ j' hle _ hfit
    omega
  | succ fuel ih =>
    unfold leafRun
    by_cases hin : j ≤ alistBmapRadix - count
    · have hbits := hmask (by omega)
      rw [if_pos hin]
      by_cases hall : orig &&& mask = mask
      · rw [if_pos hall]
        constructor
        · intro j' mask' h
          rw [Option.some.injEq, Prod.mk.injEq] at h
          obtain ⟨rfl, rfl⟩ := h
          rw [and_eq_right_iff, hbits] at hall
          exact ⟨hj, by omega, hbits, hall⟩
        · intro h
          cases h
      · rw [if_neg hall]
        have hnext := ih (fun hfit => bits_shiftLeft hbits hfit)
          (Nat.dvd_add hj dvd_rfl) (by rw [Nat.succ_mul] at hfuel; omega)
        refine ⟨hnext.1, ?_⟩
        intro hnone j' hle hdvd hfit
        rcases Nat.eq_or_lt_of_le hle with rfl | hlt
        · intro hsub
          rw [and_eq_right_iff, hbits] at hall
          exact hall hsub
        · exact hnext.2 hnone j' (add_le_of_dvd_of_lt hj hdvd hlt) hdvd hfit
    · rw [if_neg hin]
      refine ⟨fun j' mask' h => by simp at h, ?_⟩
      intro _ j' hle _ hfit
      omega

theorem Sound.mem_leaf (h : Sound hinted root 0 scan blk free) :
    b ∈ free ↔ blk ≤ b ∧ b - blk ∈ bits (root scan).bmBitmap := by
  rw [h.1, mem_image]
  constructor
  · rintro ⟨i, hi, rfl⟩
    rw [Nat.add_sub_cancel_left]
    exact ⟨Nat.le_add_right _ _, hi⟩
  · rintro ⟨hle, hmem⟩
    exact ⟨b - blk, hmem, by omega⟩

theorem Sound.leaf_sdiff (h : Sound hinted root 0 scan blk free)
    (hbits : bits (root' scan).bmBitmap = bits (root scan).bmBitmap \ Ico j (j + count))
    (hhint : (root' scan).bmBighint = (root scan).bmBighint) :
    Sound hinted root' 0 scan blk (free \ Ico (blk + j) (blk + j + count)) := by
  constructor
  · rw [hbits]
    ext b
    rw [mem_sdiff, h.mem_leaf, mem_Ico, mem_image]
    constructor
    · rintro ⟨⟨hle, hmem⟩, hout⟩
      refine ⟨b - blk, ?_, by omega⟩
      rw [mem_sdiff, mem_Ico]
      exact ⟨hmem, by omega⟩
    · rintro ⟨i, hi, rfl⟩
      rw [mem_sdiff, mem_Ico] at hi
      rw [Nat.add_sub_cancel_left]
      exact ⟨⟨Nat.le_add_right _ _, hi.1⟩, by omega⟩
  · intro hh
    rw [hhint]
    exact (h.2 hh).mono le_rfl sdiff_subset

/-- Where the hint of a leaf is lowered, the search has seen all of its free
blocks, or it has found a run. -/
theorem Safe.leaf (h : Safe free start count) (hsub : free ⊆ Ico blk (blk + 32)) (halign : 32 ∣ blk)
    (hcount : count < 32) (hstart : start < blk + 32) (hlow : start % 32 ≤ blk) :
    (∃ b, count ∣ b ∧ start ≤ b ∧ Ico b (b + count) ⊆ free) ∨ ∀ x ∈ free, start ≤ x := by
  by_cases hbegin : start ≤ blk
  · right
    intro x hx
    have hmem := mem_Ico.mp (hsub hx)
    omega
  · have hbase : start / 32 * 32 = blk := by omega
    rcases h with hbig | hsmall | ⟨b, hdvd, hle, -, hrun⟩ | hall
    · omega
    · omega
    · exact Or.inl ⟨b, hdvd, hle, hrun⟩
    · right
      intro x hx
      have hmem := mem_Ico.mp (hsub hx)
      exact hall x hx (by omega)

section

variable (hshape : Shape blocks root 0 scan blk)
include hshape

variable (hsound : Sound hinted root 0 scan blk free)
include hsound

theorem leafFailed_result (hterm : hint ≠ alistTerminator)
    (hcovers : hinted → start % 32 ≤ blk → HintCovers hint free)
    (hnone : ∀ b, count ∣ b → start ≤ b → ¬Ico b (b + count) ⊆ free) :
    AllocResult hinted True blocks root 0 scan blk start count free
      (leafFailed root scan blk start hint, none) := by
  unfold leafFailed
  split_ifs with hlow
  · apply AllocResult.of_none
    · exact frame_modify root 0 scan _
    · apply hshape.scan_changed (fun i hi => modify_of_ne root _ hi)
      rw [modify_same]
      exact hterm
    · apply hsound.hint_changed (fun i hi => modify_of_ne root _ hi)
      · rw [modify_same]
      · intro hh
        rw [modify_same]
        exact hcovers hh hlow
    · exact fun _ => hnone
  · exact AllocResult.of_none (Frame.refl _ _ _) hshape hsound (fun _ => hnone)

theorem leafTaken_result (hmask : bits mask = Ico j (j + count)) (hpos : 0 < count)
    (hdvd : count ∣ blk + j) (hstart : start < blk + alistBmapRadix)
    (hrun : Ico j (j + count) ⊆ bits (leafOrig (root scan).bmBitmap blk start)) :
    AllocResult hinted True blocks root 0 scan blk start count free (root.modify scan fun node =>
        { node with bmBitmap := node.bmBitmap &&& ~~~mask },
        some (blk + j)) := by
  apply AllocResult.of_some
  · exact frame_modify root 0 scan _
  · apply hshape.scan_changed (fun i hi => modify_of_ne root _ hi)
    rw [modify_same]
    exact hshape
  · have hmem := hrun (mem_Ico.mpr ⟨le_rfl, by omega⟩)
    exact ((mem_bits_leafOrig hstart).mp hmem).2
  · exact hdvd
  · intro b hb
    rw [mem_Ico] at hb
    have hmem := hrun (mem_Ico.mpr (⟨by omega, by omega⟩ : j ≤ b - blk ∧ b - blk < j + count))
    rw [hsound.mem_leaf]
    exact ⟨by omega, ((mem_bits_leafOrig hstart).mp hmem).1⟩
  · apply hsound.leaf_sdiff
    · rw [modify_same, bits_and_not, hmask]
    · rw [modify_same]

theorem alstLeafAlloc_result (halign : 32 ∣ blk) (hcount : 2 ^ k < 32)
    (hsafe : hinted → Safe free start (2 ^ k)) :
    AllocResult hinted True blocks root 0 scan blk start (2 ^ k) free
      (alstLeafAlloc root scan blk start (2 ^ k)) := by
  have hradix : alistBmapRadix = 32 := rfl
  have hpos : 0 < 2 ^ k := Nat.pos_of_ne_zero (by positivity)
  have hsub : free ⊆ Ico blk (blk + 32) := hsound.subset
  have hdvd : 2 ^ k ∣ blk := by
    have h32 : (32 : ℕ) = 2 ^ 5 := by norm_num
    have hk : k ≤ 5 := by
      rw [h32] at hcount
      exact ((Nat.pow_lt_pow_iff_right (by norm_num)).mp hcount).le
    rw [h32] at halign
    exact (pow_dvd_pow 2 hk).trans halign
  unfold alstLeafAlloc
  by_cases hfar : start ≥ blk + alistBmapRadix
  · rw [if_pos hfar]
    apply AllocResult.of_none (Frame.refl _ _ _) hshape hsound
    intro _ b _ hle hrun
    have hmem := mem_Ico.mp (hsub (hrun (mem_Ico.mpr ⟨le_rfl, by omega⟩)))
    omega
  · rw [if_neg hfar]
    have hstart : start < blk + alistBmapRadix := not_le.mp hfar
    -- the blocks the search can see
    have hseen : ∀ x ∈ free, start ≤ x →
        x - blk ∈ bits (leafOrig (root scan).bmBitmap blk start) := by
      intro x hx hle
      have hmem := hsound.mem_leaf.mp hx
      rw [mem_bits_leafOrig hstart]
      exact ⟨hmem.2, by omega⟩
    by_cases hzero : leafOrig (root scan).bmBitmap blk start = 0
    · rw [if_pos hzero]
      have hnothing : ∀ x ∈ free, ¬start ≤ x := by
        intro x hx hle
        have hmem := hseen x hx hle
        rw [hzero, bits_eq_empty.mpr rfl] at hmem
        exact notMem_empty _ hmem
      apply leafFailed_result hshape hsound (by decide)
      · intro hh hlow
        rcases (hsafe hh).leaf hsub halign hcount hstart hlow with
          ⟨b, -, hle, hrun⟩ | hall
        · exact absurd hle (hnothing b (hrun (mem_Ico.mpr ⟨le_rfl, by omega⟩)))
        · have hempty : free = ∅ := by
            rw [eq_empty_iff_forall_notMem]
            exact fun x hx => hnothing x hx (hall x hx)
          rw [hempty]
          exact hintCovers_empty 0
      · intro b _ hle hrun
        exact hnothing b (hrun (mem_Ico.mpr ⟨le_rfl, by omega⟩)) hle
    · rw [if_neg hzero]
      by_cases hone : 2 ^ k = 1
      · rw [if_pos hone, hone]
        have hbit : ∃ i < 2 ^ 5, (leafOrig (root scan).bmBitmap blk start).getLsbD i = true := by
          by_contra hnone
          push Not at hnone
          apply hzero
          apply eq_of_getLsbD_eq
          intro i hi
          rw [Bool.eq_false_iff.mpr (hnone i hi)]
          simp
        have hhalf : ∀ i, (BitVec.allOnes 32 >>>
            (alistBmapRadix / 2)).getLsbD i = decide (2 * i < 2 ^ 5) := by
          intro i
          rw [getLsbD_ushiftRight, getLsbD_allOnes]
          simp only [hradix]
          congr 1
          rw [eq_iff_iff]
          omega
        obtain ⟨i, hlowest, hset⟩ := lowestBit_spec (r := 0) hhalf hbit
        rw [hlowest, Nat.zero_add]
        have hlt := lt_of_getLsbD hset
        apply leafTaken_result hshape hsound _ one_pos (one_dvd _) hstart
        · intro x hx
          rw [mem_Ico] at hx
          have hxi : x = i := by omega
          rw [hxi]
          exact mem_bits.mpr hset
        · ext x
          rw [mem_bits, mem_Ico, getLsbD_shiftLeft, getLsbD_one]
          simp
          omega
      · rw [if_neg hone]
        have hfirst : bits (BitVec.allOnes 32 >>> (alistBmapRadix - 2 ^ k)) =
            Ico 0 (0 + 2 ^ k) := Kern.bits_firstMask hcount.le
        have hfind := leafRun_spec (leafOrig (root scan).bmBitmap blk start) alistBmapRadix hpos
          hcount.le (fun _ => hfirst) (dvd_zero _) (by rw [hradix]; omega)
        split
        · next j mask hrun =>
            obtain ⟨hj, -, hmask, hin⟩ := hfind.1 j mask hrun
            exact leafTaken_result hshape hsound hmask hpos (Nat.dvd_add hdvd hj) hstart hin
        · next hrun =>
            have hnone := hfind.2 hrun
            have hplace : ∀ b, 2 ^ k ∣ b → Ico b (b + 2 ^ k) ⊆ free →
                  ¬∀ x ∈ Ico b (b + 2 ^ k), start ≤ x := by
              intro b hb hrunb hall
              have hbmem := mem_Ico.mp (hsub (hrunb (mem_Ico.mpr ⟨le_rfl, by omega⟩)))
              have hbend := mem_Ico.mp (hsub (hrunb (mem_Ico.mpr
                  (⟨by omega, by omega⟩ : b ≤ b + 2 ^ k - 1 ∧
                    b + 2 ^ k - 1 < b + 2 ^ k))))
              apply hnone (b - blk) (Nat.zero_le _) (Nat.dvd_sub hb hdvd) (by omega)
              intro i hi
              rw [mem_Ico] at hi
              have hx : blk + i ∈ Ico b (b + 2 ^ k) := by
                rw [mem_Ico]
                omega
              have hmem := hseen (blk + i) (hrunb hx) (hall _ hx)
              rw [Nat.add_sub_cancel_left] at hmem
              exact hmem
            have hfree : ∀ b, 2 ^ k ∣ b → start ≤ b → ¬Ico b (b + 2 ^ k) ⊆ free := by
              intro b hb hle hrunb
              apply hplace b hb hrunb
              intro x hx
              rw [mem_Ico] at hx
              omega
            apply leafFailed_result hshape hsound _ _ hfree
            · have hterm : alistTerminator = 2 ^ 32 - 1 := rfl
              omega
            · intro hh hlow k' b hb hrunb
              by_contra hbig
              have hle : 2 ^ k ≤ 2 ^ k' := by omega
              have hdvd' : 2 ^ k ∣ 2 ^ k' :=
                pow_dvd_pow 2 ((Nat.pow_le_pow_iff_right (by norm_num)).mp hle)
              have hrunb' : Ico b (b + 2 ^ k) ⊆ free :=
                (Ico_subset_Ico_right (by omega)).trans hrunb
              rcases (hsafe hh).leaf hsub halign hcount hstart hlow with
                ⟨c, hc, hcle, hcrun⟩ | hall
              · exact hfree c hc hcle hcrun
              · apply hplace b (hdvd'.trans hb) hrunb'
                exact fun x hx => hall x (hrunb' hx)

end

end DragonFly.Alst
