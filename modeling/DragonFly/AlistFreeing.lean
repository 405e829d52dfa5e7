import DragonFly.AlistMeta

/-!
# Freeing blocks

Freeing a non-empty range of allocated blocks adds exactly these blocks to the
free ones and raises the hints above them.
-/

namespace DragonFly.Alst

open BitRange Finset
open Kern (radix skip nextSkip child childRange mem_childRange radix_succ
  radix_pos bmapRadix_le_radix scan_lt_child Agree Frame)

/-- What freeing the blocks `range` of a node with the free blocks `free` does. -/
structure FreeResult (hinted : Prop) (blocks : ℕ) (root : Memory)
    (level scan blk : ℕ) (free range : Finset ℕ) (root' : Memory) :
    Prop where
  frame : Frame root root' level scan
  shape : Shape blocks root' level scan blk
  sound : Sound hinted root' level scan blk (free ∪ range)

/-! ## Leaves -/

variable {free set : Finset ℕ} {scan blk freeBlk count blocks level j : ℕ} {root : Memory}
  {hinted : Prop}

theorem alstLeafFree_result (hsound : Sound hinted root 0 scan blk free) (halign : 32 ∣ blk)
    (hpos : 0 < count) (hlow : blk ≤ freeBlk) (hhigh : freeBlk + count ≤ blk + 32)
    (hdisj : Disjoint (Ico freeBlk (freeBlk + count)) free) :
    ∃ root', alstLeafFree root scan freeBlk count = some root' ∧
      FreeResult hinted blocks root 0 scan blk free (Ico freeBlk (freeBlk + count)) root' := by
  have hradix : alistBmapRadix = 32 := rfl
  have hmod : freeBlk % alistBmapRadix = freeBlk - blk := by
    rw [hradix]
    omega
  have hmask : bits (rangeMask 32 (freeBlk - blk) count) =
      Ico (freeBlk - blk) (freeBlk - blk + count) :=
    bits_rangeMask (by omega)
  have hfree : (root scan).bmBitmap &&& rangeMask 32 (freeBlk - blk) count = 0 := by
    rw [← bits_eq_empty, bits_and, hmask, eq_empty_iff_forall_notMem]
    intro i hi
    rw [mem_inter, mem_Ico] at hi
    have hmem : blk + i ∈ free := by
      rw [hsound.mem_leaf, Nat.add_sub_cancel_left]
      exact ⟨Nat.le_add_right _ _, hi.1⟩
    have hin : blk + i ∈ Ico freeBlk (freeBlk + count) := by
      rw [mem_Ico]
      omega
    exact disjoint_left.mp hdisj hin hmem
  unfold alstLeafFree
  rw [hmod]
  rw [if_neg (by omega), if_neg (not_not.mpr hfree)]
  refine ⟨_, rfl, frame_modify root 0 scan _, ?_, ?_, ?_⟩
  · unfold Shape
    rw [modify_same]
    exact (by decide : alistBmapRadix ≠ alistTerminator)
  · rw [modify_same, bits_or, hmask]
    ext b
    rw [mem_union, hsound.mem_leaf, mem_Ico, mem_image]
    constructor
    · rintro (⟨hle, hmem⟩ | hin)
      · exact ⟨b - blk, mem_union_left _ hmem, by omega⟩
      · refine ⟨b - blk, mem_union_right _ ?_, by omega⟩
        rw [mem_Ico]
        omega
    · rintro ⟨i, hi, rfl⟩
      rw [mem_union, mem_Ico] at hi
      rw [Nat.add_sub_cancel_left]
      rcases hi with hset | hin
      · exact Or.inl ⟨Nat.le_add_right _ _, hset⟩
      · exact Or.inr (by omega)
  · intro _
    rw [modify_same]
    have hsub : free ∪ Ico freeBlk (freeBlk + count) ⊆ Ico blk (blk + 32) := by
      apply union_subset hsound.subset
      exact Ico_subset_Ico hlow hhigh
    exact hintCovers_of_subset hsub le_rfl

/-! ## Children -/

theorem closeChild_frame (root : Memory) (level scan j : ℕ) :
    Frame root (closeChild root level scan j) level (child level scan j) := by
  unfold closeChild
  split_ifs
  · exact frame_modify root level _ _
  · exact Frame.refl _ _ _

theorem closeChild_shape (hj : j < 16) (h : Shape blocks root (level + 1) scan blk) :
    Shape blocks (closeChild root level scan j) (level + 1) scan blk := by
  apply h.child_changed (closeChild_frame root level scan j)
  intro hblocks
  have hchild := h.2 j hj hblocks
  unfold closeChild
  split_ifs
  · apply hchild.scan_changed (fun i hi => modify_of_ne root _ hi)
    rw [modify_same]
    exact (by decide : (0 : ℕ) ≠ alistTerminator)
  · exact hchild

section

variable (hj : j < 16) (h : Sound hinted root (level + 1) scan blk free)
include hj h

theorem closeChild_child
    (hsome : ¬childRange level blk j ⊆ free) :
    Sound hinted (closeChild root level scan j) level (child level scan j)
      (blk + j * radix level) (free ∩ childRange level blk j) := by
  have hfield := h.2.1 j hj
  unfold closeChild
  split_ifs with hempty
  · rw [hfield.empty_iff hj] at hempty
    rw [hempty]
    apply sound_empty
    rw [modify_same]
  · apply h.2.2.1 j hj
    constructor
    · rw [hfield.empty_iff hj] at hempty
      rw [hfield.part]
      exact nonempty_iff_ne_empty.mpr hempty
    · rw [← hfield.full] at hsome
      exact Bool.eq_false_iff.mpr hsome

theorem closeChild_sound :
    Sound hinted (closeChild root level scan j) (level + 1) scan blk free := by
  apply h.child_refreshed hj (closeChild_frame root level scan j)
  intro hmixed
  apply closeChild_child hj h
  rw [← (h.2.1 j hj).full]
  exact Bool.eq_false_iff.mp hmixed.2

theorem fullChild_sound :
    Sound hinted (root.modify scan fun node =>
        { bmBitmap := node.bmBitmap ||| fieldMask j
          bmBighint := radix level * alistMetaRadix }) (level + 1) scan blk
      (free ∪ childRange level blk j) := by
  have hsub : free ∪ childRange level blk j ⊆ Ico blk (blk + radix (level + 1)) := by
    exact union_subset h.subset (childRange_subset hj)
  have hfield : Field ((root scan).bmBitmap ||| fieldMask j) j
      (childRange level blk j) (free ∪ childRange level blk j) :=
    field_setFull hj (childRange_nonempty level blk j) subset_union_right
  apply h.child_changed hj
  · exact fun i _ => agree_child_modify root level scan i _
  · intro i hlow hhigh
    rw [modify_same, getLsbD_setFull hj]
    simp [hlow, hhigh]
  · intro b hb
    rw [mem_union]
    exact ⟨fun hor => hor.resolve_right hb, Or.inl⟩
  · rw [modify_same]
    exact hfield
  · intro hmixed
    have hhigh := hmixed.2
    rw [modify_same, hfield.full.mpr subset_union_right] at hhigh
    cases hhigh
  · intro _
    rw [modify_same]
    apply hintCovers_of_subset hsub
    rw [radix_succ, Nat.mul_comm]
    exact le_rfl

end

theorem hintCovers_max (halign : radix (level + 1) ∣ blk) (hhint : HintCovers hint free)
    (hbelow : HintCovers below (free' ∩ childRange level blk j))
    (hout : ∀ b, b ∉ childRange level blk j → (b ∈ free' ↔ b ∈ free))
    (hall : ¬childRange level blk j ⊆ free') :
    HintCovers (if hint < below then below else hint) free' := by
  intro k b hb hrun
  have hle : hint ≤ (if hint < below then below else hint) ∧
      below ≤ (if hint < below then below else hint) := by
    split_ifs
    · omega
    · omega
  by_cases hmeet : ∃ x ∈ Ico b (b + 2 ^ k), x ∈ childRange level blk j
  · obtain ⟨x, hx, hin⟩ := hmeet
    by_cases hk : 2 ^ k ≤ radix level
    · have hsub := run_subset_child halign hk hb hx hin
      exact (hbelow k b hb (subset_inter hrun hsub)).trans hle.2
    · have hsub := child_subset_run halign (not_le.mp hk).le hb hx hin
      exact absurd (hsub.trans hrun) hall
  · push Not at hmeet
    apply (hhint k b hb _).trans hle.1
    intro x hx
    exact (hout x (hmeet x hx)).mp (hrun hx)

theorem markFreed_agree (root : Memory) (level scan i j : ℕ) :
    Agree root (markFreed root level scan j) level (child level scan i) := by
  unfold markFreed
  exact agree_child_modify root level scan i _

theorem markFreed_sound {range : Finset ℕ} (hj : j < 16) (halign : radix (level + 1) ∣ blk)
    (h : Sound hinted root (level + 1) scan blk free)
    (hframe : Frame root root' level (child level scan j)) (hrange : range ⊆ childRange level blk j)
    (hsome : range.Nonempty) (hchild : Sound hinted root' level (child level scan j)
      (blk + j * radix level) ((free ∩ childRange level blk j) ∪ range)) :
    Sound hinted (markFreed root' level scan j) (level + 1) scan blk (free ∪ range) := by
  have hrest : (free ∩ childRange level blk j) ∪ range =
      (free ∪ range) ∩ childRange level blk j := by
    rw [union_inter_distrib_right, inter_eq_left.mpr hrange]
  rw [hrest] at hchild
  have hscan := hframe.scan_of_child
  have hfull : (root' (child level scan j)).bmBitmap = BitVec.allOnes 32 ↔
      childRange level blk j ⊆ free ∪ range := by
    rw [hchild.eq_full_iff, ← childRange_eq, subset_inter_iff]
    exact ⟨fun hboth => hboth.1, fun hall => ⟨hall, Finset.Subset.refl _⟩⟩
  have hmodify : markFreed root' level scan j scan =
      if (root' (child level scan j)).bmBitmap = BitVec.allOnes 32 then
        { bmBitmap := (root scan).bmBitmap ||| fieldMask j
          bmBighint := radix level * alistMetaRadix }
      else
        { bmBitmap :=
            ((root scan).bmBitmap &&& ~~~fieldMask j) ||| partMask j
          bmBighint :=
            if (root scan).bmBighint <
                (root' (child level scan j)).bmBighint then
              (root' (child level scan j)).bmBighint
            else (root scan).bmBighint } := by
    unfold markFreed
    rw [modify_same, hscan]
  have hout : ∀ b, b ∉ childRange level blk j → (b ∈ free ∪ range ↔ b ∈ free) := by
    intro b hb
    rw [mem_union]
    exact ⟨fun hor => hor.resolve_right fun hin => hb (hrange hin), Or.inl⟩
  apply h.child_changed hj
  · intro i hi
    exact (hframe.agree_sibling hi).trans (markFreed_agree root' level scan i j)
  · intro i hlow hhigh
    rw [hmodify]
    by_cases hones :
        (root' (child level scan j)).bmBitmap = BitVec.allOnes 32
    · rw [if_pos hones, getLsbD_setFull hj]
      simp [hlow, hhigh]
    · rw [if_neg hones, getLsbD_setPart hj]
      simp [hlow, hhigh]
  · exact hout
  · rw [hmodify]
    by_cases hones :
        (root' (child level scan j)).bmBitmap = BitVec.allOnes 32
    · rw [if_pos hones]
      exact field_setFull hj (childRange_nonempty level blk j) (hfull.mp hones)
    · rw [if_neg hones]
      apply field_setPart hj
      · obtain ⟨x, hx⟩ := hsome
        exact ⟨x, mem_inter.mpr ⟨mem_union_right _ hx, hrange hx⟩⟩
      · rw [← hfull]
        exact hones
  · exact fun _ => hchild.congr (markFreed_agree root' level scan j j)
  · intro hh
    rw [hmodify]
    by_cases hones :
        (root' (child level scan j)).bmBitmap = BitVec.allOnes 32
    · rw [if_pos hones]
      have hsub : free ∪ range ⊆ Ico blk (blk + radix (level + 1)) :=
        (union_subset_union_right hrange).trans (fullChild_sound hj h).subset
      apply hintCovers_of_subset hsub
      rw [radix_succ, Nat.mul_comm]
      exact le_rfl
    · rw [if_neg hones]
      apply hintCovers_max halign (h.hint hh) (hchild.hint hh) hout
      rw [← hfull]
      exact hones

theorem markFreed_shape (h : Shape blocks root (level + 1) scan blk)
    (hchild : Shape blocks root level (child level scan j)
      (blk + j * radix level)) :
    Shape blocks (markFreed root level scan j) (level + 1) scan blk := by
  unfold markFreed
  apply h.scan_changed (fun i hi => modify_of_ne root _ hi)
  rw [modify_same]
  split_ifs
  · have hradix := radix_ne_terminator (level + 1)
    rw [radix_succ, Nat.mul_comm] at hradix
    exact hradix
  · exact hchild.bighint
  · exact h.bighint

/-! ## Nodes -/

theorem FreeResult.trans {range range' : Finset ℕ}
    (h : FreeResult hinted blocks root level scan blk free range root')
    (h' : FreeResult hinted blocks root' level scan blk (free ∪ range) range' root'') :
    FreeResult hinted blocks root level scan blk free (range ∪ range') root'' := by
  refine ⟨h.frame.trans h'.frame, h'.shape, ?_⟩
  rw [← union_assoc]
  exact h'.sound

theorem FreeResult.refl (hshape : Shape blocks root level scan blk)
    (hsound : Sound hinted root level scan blk free) :
    FreeResult hinted blocks root level scan blk free (Ico a (a + 0)) root := by
  refine ⟨Frame.refl _ _ _, hshape, ?_⟩
  rw [Nat.add_zero, Ico_self, union_empty]
  exact hsound

/-- A function that frees ranges of nodes of a level. -/
def Frees (hinted : Prop) (blocks level : ℕ)
    (free : Memory → ℕ → ℕ → ℕ → ℕ → Option Memory) : Prop :=
  ∀ {root scan blk set freeBlk count}, Shape blocks root level scan blk →
    Sound hinted root level scan blk set → radix level ∣ blk → 0 < count → blk ≤ freeBlk →
    freeBlk + count ≤ blk + radix level → freeBlk + count ≤ blocks →
    Disjoint (Ico freeBlk (freeBlk + count)) set →
    ∃ root', free root scan freeBlk count blk = some root' ∧
      FreeResult hinted blocks root level scan blk set (Ico freeBlk (freeBlk + count)) root'

variable {free : Memory → ℕ → ℕ → ℕ → ℕ → Option Memory}

theorem partChild_result (hfree : Frees hinted blocks level free) (hj : j < 16)
    (halign : radix (level + 1) ∣ blk) (hshape : Shape blocks root (level + 1) scan blk)
    (hsound : Sound hinted root (level + 1) scan blk set) (hv : 0 < v)
    (hlow : blk + j * radix level ≤ freeBlk)
    (hhigh : freeBlk + v ≤ blk + j * radix level + radix level) (hblocks : freeBlk + v ≤ blocks)
    (hdisj : Disjoint (Ico freeBlk (freeBlk + v)) set) :
    ∃ root', free (closeChild root level scan j) (child level scan j)
        freeBlk v (blk + j * radix level) = some root' ∧
      FreeResult hinted blocks root (level + 1) scan blk set (Ico freeBlk (freeBlk + v))
        (markFreed root' level scan j) := by
  have hrange : Ico freeBlk (freeBlk + v) ⊆ childRange level blk j := Ico_subset_Ico hlow hhigh
  have hmem : freeBlk ∈ Ico freeBlk (freeBlk + v) :=
    mem_Ico.mpr ⟨le_rfl, Nat.lt_add_of_pos_right hv⟩
  have hsome : ¬childRange level blk j ⊆ set := fun hall =>
    disjoint_left.mp hdisj hmem (hall (hrange hmem))
  have hshape' := closeChild_shape hj hshape
  have hsound' := closeChild_sound hj hsound
  obtain ⟨root', heq, hres⟩ := hfree (hshape'.2 j hj (by omega))
    (closeChild_child hj hsound hsome) (radix_dvd_child halign j) hv hlow hhigh hblocks
    (hdisj.mono_right inter_subset_left)
  refine ⟨root', heq, ?_, ?_, ?_⟩
  · apply ((closeChild_frame root level scan j).of_child hj).trans
    apply (hres.frame.of_child hj).trans
    unfold markFreed
    exact frame_modify root' (level + 1) scan _
  · exact markFreed_shape (hshape'.child_changed hres.frame fun _ => hres.shape) hres.shape
  · exact markFreed_sound hj halign hsound' hres.frame hrange ⟨freeBlk, hmem⟩ hres.sound

theorem freeScan_result (left : ℕ) (hfree : Frees hinted blocks level free)
    (halign : radix (level + 1) ∣ blk) (hleft : left + j = 16)
    (hshape : Shape blocks root (level + 1) scan blk)
    (hsound : Sound hinted root (level + 1) scan blk set)
    (hsome : 0 < count → blk + j * radix level ≤ freeBlk ∧
      freeBlk < blk + j * radix level + radix level)
    (hdone : count = 0 → freeBlk ≤ blk + j * radix level)
    (hend : freeBlk + count ≤ blk + radix (level + 1)) (hblocks : freeBlk + count ≤ blocks)
    (hdisj : Disjoint (Ico freeBlk (freeBlk + count)) set) :
    ∃ root', freeScan free level scan blk left root j freeBlk count = some root' ∧
      FreeResult hinted blocks root (level + 1) scan blk set
        (Ico freeBlk (freeBlk + count)) root' := by
  induction left generalizing root set j freeBlk count with
  | zero =>
    have hzero : count = 0 := by
      by_contra hne
      have hj : j = 16 := by omega
      have hfirst := (hsome (by omega)).1
      rw [radix_succ] at hend
      rw [hj] at hfirst
      omega
    rw [hzero]
    exact ⟨root, rfl, FreeResult.refl hshape hsound⟩
  | succ left ih =>
    have hj : j < 16 := by omega
    unfold freeScan
    by_cases hin : blk + j * radix level < freeBlk + count
    · rw [if_pos hin, if_neg hshape.bighint]
      have hcount : 0 < count := by
        by_contra hzero
        omega
      obtain ⟨hlow, hhigh⟩ := hsome hcount
      generalize hv : min (blk + j * radix level + radix level - freeBlk) count = v
      have hvpos : 0 < v := by omega
      have hsplit : Ico freeBlk (freeBlk + count) = Ico freeBlk (freeBlk + v) ∪
            Ico (freeBlk + v) (freeBlk + v + (count - v)) := by
        have hsum : freeBlk + v + (count - v) = freeBlk + count := by
          omega
        rw [hsum]
        exact (Ico_union_Ico_eq_Ico (by omega) (by omega)).symm
      rw [hsplit] at hdisj ⊢
      rw [disjoint_union_left] at hdisj
      have hmul : (j + 1) * radix level = j * radix level + radix level := Nat.succ_mul j _
      -- the rest of the range, after the part in child `j`
      have hnext : ∀ root', FreeResult hinted blocks root (level + 1) scan
            blk set (Ico freeBlk (freeBlk + v)) root' →
          ∃ root'', freeScan free level scan blk left root' (j + 1)
              (freeBlk + v) (count - v) = some root'' ∧
            FreeResult hinted blocks root (level + 1) scan blk set
              (Ico freeBlk (freeBlk + v) ∪ Ico (freeBlk + v) (freeBlk + v + (count - v)))
              root'' := by
        intro root' hres
        have hsome' : 0 < count - v → blk + (j + 1) * radix level ≤ freeBlk + v ∧ freeBlk + v <
                blk + (j + 1) * radix level + radix level := by
          intro hmore
          rw [hmul]
          omega
        have hdone' : count - v = 0 → freeBlk + v ≤ blk + (j + 1) * radix level := by
          intro _
          rw [hmul]
          omega
        have hdisj' : Disjoint (Ico (freeBlk + v) (freeBlk + v + (count - v)))
            (set ∪ Ico freeBlk (freeBlk + v)) := by
          rw [disjoint_union_right]
          refine ⟨hdisj.2, ?_⟩
          rw [disjoint_left]
          intro x hx hx'
          rw [mem_Ico] at hx hx'
          omega
        obtain ⟨root'', heq, hres'⟩ := ih (by omega) hres.shape hres.sound
          hsome' hdone' (by omega) (by omega) hdisj'
        exact ⟨root'', heq, hres.trans hres'⟩
      by_cases hwhole : freeBlk = blk + j * radix level ∧ count ≥ radix level
      · rw [if_pos hwhole]
        have hrange : Ico freeBlk (freeBlk + v) = childRange level blk j := by
          have hsize : v = radix level := by omega
          rw [childRange_eq, hsize, hwhole.1]
        have hzero : (root scan).bmBitmap &&& fieldMask j = 0 := by
          rw [(hsound.2.1 j hj).empty_iff hj, eq_empty_iff_forall_notMem]
          intro x hx
          rw [mem_inter, ← hrange] at hx
          exact disjoint_left.mp hdisj.1 hx.2 hx.1
        rw [if_neg (not_not.mpr hzero)]
        apply hnext
        refine ⟨frame_modify root (level + 1) scan _, ?_, ?_⟩
        · apply hshape.scan_changed (fun i hi => modify_of_ne root _ hi)
          rw [modify_same]
          have hradix := radix_ne_terminator (level + 1)
          rw [radix_succ, Nat.mul_comm] at hradix
          exact hradix
        · rw [hrange]
          exact fullChild_sound hj hsound
      · rw [if_neg hwhole]
        obtain ⟨root', heq, hres⟩ := partChild_result hfree hj halign
          hshape hsound hvpos hlow (by omega) (by omega) hdisj.1
        rw [heq]
        exact hnext _ hres
    · rw [if_neg hin]
      have hzero : count = 0 := by
        by_contra hne
        omega
      rw [hzero]
      exact ⟨root, rfl, FreeResult.refl hshape hsound⟩

theorem alstFree_result (level : ℕ) : Frees hinted blocks level (alstFree level) := by
  induction level with
  | zero =>
    intro root scan blk set freeBlk count _ hsound halign hpos hlow hhigh _ hdisj
    exact alstLeafFree_result hsound halign hpos hlow hhigh hdisj
  | succ level ih =>
    intro root scan blk set freeBlk count hshape hsound halign hpos hlow hhigh hblocks hdisj
    have hradix := radix_pos level
    unfold alstFree
    have hplace : blk + (freeBlk - blk) / radix level * radix level ≤ freeBlk ∧
        freeBlk < blk + (freeBlk - blk) / radix level * radix level + radix level := by
      have hmod := Nat.div_add_mod (freeBlk - blk) (radix level)
      have hlt := Nat.mod_lt (freeBlk - blk) hradix
      have hcomm : radix level * ((freeBlk - blk) / radix level) =
          (freeBlk - blk) / radix level * radix level := Nat.mul_comm _ _
      omega
    have hfirst : (freeBlk - blk) / radix level < 16 := by
      rw [Nat.div_lt_iff_lt_mul hradix]
      rw [radix_succ] at hhigh
      omega
    apply freeScan_result _ ih halign _ hshape hsound (fun _ => hplace) _ hhigh hblocks hdisj
    · show 16 - (freeBlk - blk) / radix level + (freeBlk - blk) / radix level = 16
      omega
    · intro hzero
      omega

end DragonFly.Alst
