import DragonFly.BlistAllocation

/-!
# Freeing and filling ranges of a blist

Both operations cut a range at the boundaries of the children of a node and
work on the pieces from left to right.
-/

namespace DragonFly.Kern

open BitRange Finset Memory

/-! ## Cutting a range at the children -/

/-- The range of `count` blocks from `start` on is what is left of a range when
child `j` comes next. -/
inductive Pending (level blk j start count : ℕ) : Prop
  | done (hcount : count = 0) (hstart : start ≤ blk + j * radix level)
  | more (hin : blk + j * radix level < start + count) (hle : blk + j * radix level ≤ start)
      (hlt : start < blk + (j + 1) * radix level)

variable {level blk start count j v n scan : ℕ} {free : Finset ℕ} {root : Memory}

theorem pending_first (count : ℕ) (hle : blk ≤ start) :
    Pending level blk ((start - blk) / radix level) start count := by
  have hpos := radix_pos level
  have hdiv := Nat.div_mul_le_self (start - blk) (radix level)
  have hlt := Nat.lt_mul_div_succ (start - blk) hpos
  rw [Nat.mul_comm] at hlt
  by_cases hin : blk + (start - blk) / radix level * radix level < start + count
  · exact .more hin (by omega) (by omega)
  · exact .done (by omega) (by omega)

theorem Pending.next (hle : blk + j * radix level ≤ start)
    (hlt : start < blk + (j + 1) * radix level)
    (hv : v = min (blk + j * radix level + radix level - start) count) :
    Pending level blk (j + 1) (start + v) (count - v) := by
  have hmul : (j + 1) * radix level = j * radix level + radix level := Nat.succ_mul _ _
  rcases Nat.le_total (blk + j * radix level + radix level - start) count with hcut | hcut
  · rcases Nat.eq_or_lt_of_le hcut with heq | hmore
    · exact .done (by omega) (by omega)
    · refine .more (by omega) (by omega) ?_
      rw [Nat.succ_mul (j + 1)]
      omega
  · exact .done (by omega) (by omega)

theorem Ico_cut (start : ℕ) (hv : v ≤ count) :
    Ico start (start + count) = Ico start (start + v) ∪
        Ico (start + v) (start + v + (count - v)) := by
  ext b
  simp only [mem_union, mem_Ico]
  omega

/-- The shifts for the range are less than the width of a word. -/
def Shiftable (start count : ℕ) : Prop :=
  start % blistBmapRadix = 0 → 1 ≤ count

theorem Shiftable.ne (h : Shiftable start count) :
    blistBmapRadix - count - start % blistBmapRadix ≠ blistBmapRadix := by
  unfold Shiftable blistBmapRadix at *
  omega

theorem bits_leafMask (halign : 32 ∣ blk) (hshift : Shiftable start count) (hle : blk ≤ start)
    (hge : start + count ≤ blk + 32) :
    bits (rangeMask 32 (start % blistBmapRadix) count) =
      Ico (start - blk) (start - blk + count) := by
  have hoffset : start % blistBmapRadix = start - blk := by
    obtain ⟨k, rfl⟩ := halign
    unfold Shiftable blistBmapRadix at *
    omega
  rw [hoffset]
  exact bits_rangeMask (by omega)

theorem piece_subset_childRange
    (hle : blk + j * radix level ≤ start) (hv : start + v ≤ blk + j * radix level + radix level) :
    Ico start (start + v) ⊆ childRange level blk j :=
  Ico_subset_Ico hle hv

/-- The piece of `v` blocks that falls on child `j`, and what is left of the range. -/
structure Piece (level blk n j start count v : ℕ) : Prop where
  exists_child : j < children level n
  size : v = min (blk + j * radix level + radix level - start) count
  shiftable : level = 0 → Shiftable start v
  le : v ≤ count
  cut : Ico start (start + count) =
    Ico start (start + v) ∪ Ico (start + v) (start + v + (count - v))
  in_child : start + v ≤ blk + j * radix level + childBlocks level n j
  in_range : Ico start (start + v) ⊆ childRange level blk j
  next : Pending level blk (j + 1) (start + v) (count - v)

theorem exists_piece (halign : 32 ∣ blk) (hin : blk + j * radix level < start + count)
    (hle : blk + j * radix level ≤ start) (hlt : start < blk + (j + 1) * radix level)
    (hend : start + count ≤ blk + n) :
    ∃ v, Piece level blk n j start count v := by
  have hsucc : (j + 1) * radix level = j * radix level + radix level := Nat.succ_mul _ _
  obtain ⟨v, hv⟩ : ∃ v, v = min (blk + j * radix level + radix level - start) count := ⟨_, rfl⟩
  have hchild : start + v ≤ blk + j * radix level + radix level := by omega
  refine ⟨v, lt_children_iff.mpr (by omega), hv, ?_, by omega, Ico_cut start (by omega), ?_,
    piece_subset_childRange hle hchild, Pending.next hle hlt hv⟩
  · rintro rfl hmod
    obtain ⟨k, rfl⟩ := halign
    have hradix : radix 0 = 32 := rfl
    rw [hradix] at hin hle hlt hv hsucc
    unfold blistBmapRadix at hmod
    omega
  · unfold childBlocks
    omega

theorem Pending.left_pos (hn : n ≤ radix (level + 1)) (hleft : left + j = 16)
    (hin : blk + j * radix level < start + count) (hend : start + count ≤ blk + n) :
    0 < left := by
  have hle16 := children_le hn
  have hj : j < children level n := lt_children_iff.mpr (by omega)
  omega

theorem first_child (hn : n ≤ radix (level + 1)) (hend : start + count ≤ blk + n) :
    blistMetaRadix - (start - blk) / radix level + (start - blk) / radix level = 16 := by
  have hj : (start - blk) / radix level ≤ 16 := by
    apply Nat.div_le_of_le_mul
    rw [Nat.mul_comm, ← radix_succ]
    omega
  simp only [blistMetaRadix]
  omega

/-! ## Freeing -/

/-- `release` frees allocated ranges of nodes of the given level. -/
def Frees (release : Memory → ℕ → ℕ → ℕ → ℕ → Option Memory) (level : ℕ) : Prop :=
  ∀ root scan blk n free start count, n ≤ radix level → 32 ∣ blk →
    Node root level scan blk n free → (level = 0 → Shiftable start count) →
    blk ≤ start → start + count ≤ blk + n →
    Disjoint free (Ico start (start + count)) →
      ∃ root', release root scan start count blk = some root' ∧
        Node root' level scan blk n (free ∪ Ico start (start + count)) ∧
        Frame root root' level scan

theorem blstLeafFree_spec : Frees (blstFree 0) 0 := by
  intro root scan blk n free start count hn halign hnode hshift hle hge hdisjoint
  have hrep := hnode.rep
  have hsub : Ico start (start + count) ⊆ Ico blk (blk + n) := Ico_subset_Ico hle hge
  have hmask := bits_leafMask halign (hshift rfl) hle (hge.trans (Nat.add_le_add_left hn blk))
  have hclear : ¬(root scan).bmuBitmap &&& rangeMask 32 (start % blistBmapRadix) count ≠ 0 := by
    rw [not_not, ← bits_eq_empty, bits_and, hmask, ← disjoint_iff_inter_eq_empty, disjoint_left]
    intro i hbit hi
    rw [mem_Ico] at hi
    refine disjoint_left.mp hdisjoint ((hrep.2 (blk + i)).mpr ⟨by omega, ?_⟩)
      (mem_Ico.mpr (by omega))
    rwa [Nat.add_sub_cancel_left]
  refine ⟨_, (if_neg (hshift rfl).ne).trans (if_neg hclear), ⟨?_, ?_, ?_⟩,
    frame_modify root 0 scan _⟩
  · unfold Shape
    rw [modify_same]
    simp
  · refine ⟨union_subset hrep.subset hsub, ?_⟩
    intro b
    rw [modify_same, bits_or, hmask, mem_union, hrep.2 b, mem_union, mem_Ico, mem_Ico]
    constructor
    · rintro (⟨hb, hbit⟩ | hb)
      · exact ⟨hb, Or.inl hbit⟩
      · exact ⟨by omega, Or.inr (by omega)⟩
    · rintro ⟨hb, hbit | hbit⟩
      · exact Or.inl ⟨hb, hbit⟩
      · exact Or.inr (by omega)
  · apply hintSound_of_radix
    rw [modify_same]
    rfl

/-- A child got the blocks `piece`, and the hint of the node was raised to that
of the child. -/
theorem hintSound_raised (hsub : free ∪ piece ⊆ Ico blk (blk + n)) (halign : 32 ∣ blk)
    (hpiece : piece ⊆ childRange level blk j) (hold : HintSound hint free)
    (hchild : HintSound childHint ((free ∪ piece) ∩ childRange level blk j)) (hle : hint ≤ hint')
    (hle' : childHint ≤ hint') : HintSound hint' (free ∪ piece) := by
  apply hintSound_of_children hsub halign
  intro i _
  by_cases hij : i = j
  · rw [hij]
    exact hchild.raise hle'
  · apply (hold.raise hle).mono
    intro b hb
    rw [mem_inter, mem_union] at hb
    rcases hb with ⟨hfree | hnew, hrange⟩
    · exact hfree
    · exact absurd (hpiece hnew) (childRange_disjoint hij hrange)

variable {release : Memory → ℕ → ℕ → ℕ → ℕ → Option Memory}

theorem freeScan_spec
    (hrelease : Frees release level) (hn : n ≤ radix (level + 1)) (halign : 32 ∣ blk)
    (left : ℕ) (hleft : left + j = 16)
    (hpending : Pending level blk j start count) (hend : start + count ≤ blk + n)
    (hsubset : free ∪ Ico start (start + count) ⊆ Ico blk (blk + n))
    (hdisjoint : Disjoint free (Ico start (start + count)))
    (hsub : Sub root level scan blk n free) (hnonneg : 0 ≤ (root scan).bmBighint)
    (hhint : HintSound (root scan).bmBighint free)
    (havail : (root scan).bmuAvail = (free ∪ Ico start (start + count)).card) :
    ∃ root', freeScan release level scan left root (child level scan j)
          (blk + j * radix level) start count = some root' ∧
        Node root' (level + 1) scan blk n (free ∪ Ico start (start + count)) ∧
        Frame root root' (level + 1) scan := by
  induction left generalizing j root free start count with
  | zero =>
    cases hpending with
    | done hcount hstart =>
      subst hcount
      simp only [Nat.add_zero, Ico_self, union_empty] at hsubset havail ⊢
      exact ⟨root, rfl, hsub.toNode hsubset havail hnonneg hhint, Frame.refl _ _ _⟩
    | more hin hle hlt =>
      exact absurd (Pending.left_pos hn hleft hin hend) (Nat.lt_irrefl 0)
  | succ left ih =>
    cases hpending with
    | done hcount hstart =>
      subst hcount
      simp only [Nat.add_zero, Ico_self, union_empty] at hsubset havail ⊢
      refine ⟨root, ?_, hsub.toNode hsubset havail hnonneg hhint, Frame.refl _ _ _⟩
      unfold freeScan
      rw [if_neg (by omega)]
    | more hin hle hlt =>
      obtain ⟨v, hpiece⟩ := exists_piece halign hin hle hlt hend
      have hsucc : (j + 1) * radix level = j * radix level + radix level := Nat.succ_mul _ _
      have hj := hpiece.exists_child
      have hvcount := hpiece.le
      rw [hpiece.cut, disjoint_union_right] at hdisjoint
      rw [hpiece.cut, ← union_assoc] at hsubset havail ⊢
      obtain ⟨root1, hsome, hfreed, hframe⟩ := hrelease root (child level scan j) _ _ _ _ _
        (childBlocks_le level n j) (dvd_childBlock halign j) (hsub.node j hj) hpiece.shiftable
        hle hpiece.in_child (hdisjoint.1.mono_left inter_subset_left)
      have hinside : (free ∪ Ico start (start + v)) ∩ childRange level blk j =
          free ∩ childRange level blk j ∪ Ico start (start + v) := by
        rw [union_inter_distrib_right, inter_eq_left.mpr hpiece.in_range]
      rw [← hinside] at hfreed
      have hsub1 := hsub.child_changed hj hframe hfreed (by
        intro b hb
        rw [mem_union, or_iff_left]
        exact fun hmem => hb (hpiece.in_range hmem))
      -- the hint of the node is raised to that of the child
      obtain ⟨f, hf⟩ : ∃ f : Blmeta → Blmeta, f = fun node =>
          if node.bmBighint < (root1 (child level scan j)).bmBighint then
            { node with bmBighint := (root1 (child level scan j)).bmBighint }
          else node := ⟨_, rfl⟩
      have hscan : (root1.modify scan f) scan = f (root scan) := by
        rw [modify_same, hframe.scan_of_child]
      have hraised : (root scan).bmBighint ≤ (root1.modify scan f scan).bmBighint ∧
          (root1 (child level scan j)).bmBighint ≤ (root1.modify scan f scan).bmBighint := by
        rw [hscan, hf]
        simp only
        split_ifs with hlow
        · exact ⟨hlow.le, le_rfl⟩
        · exact ⟨le_rfl, not_lt.mp hlow⟩
      have havail1 : (root1.modify scan f scan).bmuAvail = (root scan).bmuAvail := by
        rw [hscan, hf]
        simp only
        split_ifs <;> rfl
      have hdisjoint1 : Disjoint (free ∪ Ico start (start + v))
          (Ico (start + v) (start + v + (count - v))) := by
        rw [disjoint_union_left]
        refine ⟨hdisjoint.2, ?_⟩
        rw [disjoint_left]
        intro b hb hb'
        rw [mem_Ico] at hb hb'
        omega
      obtain ⟨root', hscan', hnode', hframe'⟩ :=
        ih (by omega : left + (j + 1) = 16) hpiece.next (by omega) hsubset hdisjoint1
          (hsub1.modify hn f) (hnonneg.trans hraised.1)
          (hintSound_raised (subset_union_left.trans hsubset) halign
            hpiece.in_range hhint hfreed.hinted.hint hraised.1 hraised.2)
          (havail1.trans havail)
      refine ⟨root', ?_, hnode',
        ((hframe.of_child (by omega)).trans (frame_modify root1 _ scan f)).trans hframe'⟩
      unfold freeScan
      rw [if_pos (by omega), ← hpiece.size, if_neg (by omega)]
      simp only [hsome]
      rw [child_succ, hsucc, ← Nat.add_assoc, hf] at hscan'
      exact hscan'

theorem blstMetaFree_spec
    (hrelease : Frees release level) : Frees (blstMetaFree release level) (level + 1) := by
  intro root scan blk n free start count hn halign hnode _ hle hend hdisjoint
  have hsub : Ico start (start + count) ⊆ Ico blk (blk + n) := Ico_subset_Ico hle hend
  have hchildren := hnode.subShape
  have havail := hnode.avail
  have hcard : (free ∪ Ico start (start + count)).card = free.card + count := by
    rw [card_union_of_disjoint hdisjoint, Nat.card_Ico]
    omega
  have hsubset := union_subset hnode.subset hsub
  have hmost := card_le_card hsubset
  rw [hcard, Nat.card_Ico] at hmost
  have hfirst := first_child hn hend
  simp only [blstMetaFree]
  by_cases hempty : free = ∅
  · subst hempty
    rw [card_empty, Nat.zero_add] at hcard
    have hzero : (root scan).bmuAvail = 0 := havail
    obtain ⟨f, hf⟩ : ∃ f : Blmeta → Blmeta, f = fun node =>
        { node with bmuAvail := count, bmBighint := count } := ⟨_, rfl⟩
    have hmodify := root.modify_same scan f
    have hshape := hchildren.congr hn (subAgree_modify root level scan f)
    rw [if_pos hzero, ← hf]
    by_cases hwhole : count = radix (level + 1)
    · rw [if_neg (not_not.mpr hwhole)]
      rw [if_pos (by rw [hmodify, hf, hwhole])]
      refine ⟨_, rfl, ?_, (frame_modify root _ scan f).trans (frame_modify _ _ scan _)⟩
      apply node_full (hshape.congr hn (subAgree_modify _ level scan _)) hsubset
        (hcard.trans hwhole)
      · rw [modify_same, hmodify, hf, hwhole]
      · rw [modify_same]
    · rw [if_pos hwhole]
      obtain ⟨hsub1, hframe1, hscan1⟩ := Sub.initAllocated blk hn hshape
      have hown := hscan1.trans hmodify
      have hcount' : (f (root scan)).bmuAvail = count ∧ (f (root scan)).bmBighint = count := by
        rw [hf]
        exact ⟨rfl, rfl⟩
      rw [hown, hcount'.1, if_neg (by exact_mod_cast hwhole), if_neg (by omega)]
      obtain ⟨root', hsome, hnode', hframe'⟩ :=
        freeScan_spec hrelease hn halign _ hfirst (pending_first count hle) hend hsubset
          hdisjoint hsub1 (by rw [hown, hcount'.2]; omega)
          (by rw [hown, hcount'.2]; exact hintSound_of_card (Int.natCast_nonneg _))
          (by rw [hown, hcount'.1, hcard])
      exact ⟨root', hsome, hnode', ((frame_modify root _ scan f).trans hframe1).trans hframe'⟩
  · have hnonzero : ¬(root scan).bmuAvail = 0 := by
      rw [havail]
      simpa using hempty
    obtain ⟨f, hf⟩ : ∃ f : Blmeta → Blmeta, f = fun node =>
        { node with bmuAvail := node.bmuAvail + count } := ⟨_, rfl⟩
    have hmodify := root.modify_same scan f
    have hown : (f (root scan)).bmuAvail = (free.card + count : ℕ) := by
      rw [hf]
      simp only [havail]
      push_cast
      ring
    have hsame : (f (root scan)).bmBighint = (root scan).bmBighint := by
      rw [hf]
    rw [if_neg hnonzero, ← hf, hmodify, hown]
    by_cases hwhole : free.card + count = radix (level + 1)
    · rw [if_pos (by exact_mod_cast hwhole)]
      refine ⟨_, rfl, ?_, (frame_modify root _ scan f).trans (frame_modify _ _ scan _)⟩
      have hshape := hchildren.congr hn (subAgree_modify root level scan f)
      apply node_full (hshape.congr hn (subAgree_modify _ level scan _)) hsubset
        (hcard.trans hwhole)
      · rw [modify_same, hmodify]
        rw [hown, hwhole]
      · rw [modify_same]
    · rw [if_neg (by exact_mod_cast hwhole), if_neg (by omega)]
      obtain ⟨root', hsome, hnode', hframe'⟩ :=
        freeScan_spec hrelease hn halign _ hfirst (pending_first count hle) hend hsubset
          hdisjoint ((hnode.sub hempty (by omega)).modify hn f)
          (by rw [hmodify, hsame]; exact hnode.shape.bighint)
          (by rw [hmodify, hsame]; exact hnode.hinted.hint)
          (by rw [hmodify, hown, hcard])
      exact ⟨root', hsome, hnode', (frame_modify root _ scan f).trans hframe'⟩

theorem blstFree_spec (level : ℕ) : Frees (blstFree level) level := by
  induction level with
  | zero => exact blstLeafFree_spec
  | succ level ih => exact blstMetaFree_spec ih

/-! ## Filling -/

/-- The outcome of filling the blocks `range` of a node, `filled` of which were
free. -/
structure Filling (root root' : Memory) (level scan blk n filled : ℕ)
    (free range : Finset ℕ) : Prop where
  node : Node root' level scan blk n (free \ range)
  frame : Frame root root' level scan
  filled : filled = (free ∩ range).card

/-- `fill` fills ranges of nodes of the given level.  It may panic, though not
on a range that fits in a leaf. -/
def Fills (fill : Memory → ℕ → ℕ → ℕ → ℕ → Option (Memory × ℕ)) (level : ℕ) : Prop :=
  ∀ root scan blk n free start count, n ≤ radix level → 32 ∣ blk →
    Node root level scan blk n free → (level = 0 → Shiftable start count) →
    blk ≤ start → start + count ≤ blk + n →
      (count ≤ 32 → (fill root scan start count blk).isSome = true) ∧
      ∀ root' filled, fill root scan start count blk = some (root', filled) →
          Filling root root' level scan blk n filled free (Ico start (start + count))

theorem blstLeafFill_spec : Fills (blstFill 0) 0 := by
  intro root scan blk n free start count hn halign hnode hshift hle hge
  have hrep := hnode.rep
  have hmask := bits_leafMask halign (hshift rfl) hle (hge.trans (Nat.add_le_add_left hn blk))
  simp only [blstFill, blstLeafFill, if_neg (hshift rfl).ne]
  refine ⟨fun _ => rfl, ?_⟩
  intro root' filled hfill
  simp only [Option.some.injEq, Prod.mk.injEq] at hfill
  obtain ⟨rfl, rfl⟩ := hfill
  refine ⟨⟨?_, ?_, ?_⟩, frame_modify root 0 scan _, ?_⟩
  · unfold Shape
    rw [modify_same]
    exact hnode.shape
  · have hstart : Ico start (start + count) =
        Ico (blk + (start - blk)) (blk + (start - blk) + count) := by
      rw [Nat.add_sub_cancel' hle]
    rw [hstart]
    refine hrep.leaf_sdiff ?_
    rw [modify_same, bits_and_not, hmask]
  · unfold Hinted
    rw [modify_same]
    exact hnode.hinted.hint.mono sdiff_subset
  · rw [countBits_eq_card (card_bits_le _), bits_and, hmask]
    -- bit `i` of the leaf is block `blk + i`
    apply card_bij fun i _ => blk + i
    · intro i hi
      rw [mem_inter, mem_Ico] at hi
      rw [mem_inter, mem_Ico, hrep.2, Nat.add_sub_cancel_left]
      exact ⟨⟨by omega, hi.1⟩, by omega⟩
    · intro i _ i' _ heq
      omega
    · intro b hb
      rw [mem_inter, mem_Ico, hrep.2] at hb
      refine ⟨b - blk, ?_, by omega⟩
      rw [mem_inter, mem_Ico]
      exact ⟨hb.1.2, by omega⟩

theorem card_inter_cut {first range : Finset ℕ} (free rest : Finset ℕ) (h : first ⊆ range) :
    (free ∩ range ∩ first).card + ((free \ first) ∩ rest).card = (free ∩ (first ∪ rest)).card := by
  have hdisjoint : Disjoint (free ∩ range ∩ first) ((free \ first) ∩ rest) := by
    rw [disjoint_left]
    intro b hb hb'
    simp only [mem_inter, mem_sdiff] at hb hb'
    exact hb'.1.2 hb.2
  rw [← card_union_of_disjoint hdisjoint]
  congr 1
  ext b
  simp only [mem_union, mem_inter, mem_sdiff]
  tauto

variable {fill : Memory → ℕ → ℕ → ℕ → ℕ → Option (Memory × ℕ)}

theorem fillScan_spec (hfill : Fills fill level) (hn : n ≤ radix (level + 1)) (halign : 32 ∣ blk)
    (left : ℕ) (hleft : left + j = 16) (nblks : ℕ)
    (hpending : Pending level blk j start count) (hend : start + count ≤ blk + n)
    (hnonneg : 0 ≤ (root scan).bmBighint) (hsub : Sub root level scan blk n free) :
    (count ≤ 32 → (fillScan fill level scan left root (child level scan j)
        (blk + j * radix level) start count nblks).isSome = true) ∧
    ∀ root' filled, fillScan fill level scan left root (child level scan j)
          (blk + j * radix level) start count nblks = some (root', filled) →
        Frame root root' (level + 1) scan ∧ root' scan = root scan ∧
        filled = nblks + (free ∩ Ico start (start + count)).card ∧
        Sub root' level scan blk n (free \ Ico start (start + count)) := by
  induction left generalizing j root free start count nblks with
  | zero =>
    cases hpending with
    | done hcount hstart =>
      subst hcount
      refine ⟨fun _ => rfl, ?_⟩
      intro root' filled hsome
      simp only [fillScan, Option.some.injEq, Prod.mk.injEq] at hsome
      obtain ⟨rfl, rfl⟩ := hsome
      exact ⟨Frame.refl _ _ _, rfl, by simp, by simpa using hsub⟩
    | more hin hle hlt =>
      exact absurd (Pending.left_pos hn hleft hin hend) (Nat.lt_irrefl 0)
  | succ left ih =>
    cases hpending with
    | done hcount hstart =>
      subst hcount
      unfold fillScan
      rw [if_neg (by omega)]
      refine ⟨fun _ => rfl, ?_⟩
      intro root' filled hsome
      simp only [Option.some.injEq, Prod.mk.injEq] at hsome
      obtain ⟨rfl, rfl⟩ := hsome
      exact ⟨Frame.refl _ _ _, rfl, by simp, by simpa using hsub⟩
    | more hin hle hlt =>
      obtain ⟨v, hpiece⟩ := exists_piece halign hin hle hlt hend
      have hj := hpiece.exists_child
      have hvcount := hpiece.le
      obtain ⟨hsmall, hchild⟩ := hfill root (child level scan j) _ _ _ start v
        (childBlocks_le level n j) (dvd_childBlock halign j) (hsub.node j hj) hpiece.shiftable
        hle hpiece.in_child
      have hnext : child level scan j + nextSkip level = child level scan (j + 1) :=
        (child_succ level scan j).symm
      have hblk : blk + j * radix level + radix level = blk + (j + 1) * radix level := by
        ring
      unfold fillScan
      rw [if_pos (by omega), ← hpiece.size, if_neg (by omega), hnext, hblk]
      cases hcase : fill root (child level scan j) start v (blk + j * radix level) with
      | none =>
        rw [hcase] at hsmall
        constructor
        · intro hle32
          exact absurd (hsmall (by omega)) Bool.false_ne_true
        · intro root' filled hsome
          simp at hsome
      | some result =>
        obtain ⟨root1, filled1⟩ := result
        have hfilled := hchild root1 filled1 hcase
        have hsub1 : Sub root1 level scan blk n (free \ Ico start (start + v)) := by
          refine hsub.child_changed hj hfilled.frame ?_ ?_
          · rw [sdiff_inter_right_comm]
            exact hfilled.node
          · intro b hb
            rw [mem_sdiff, and_iff_left]
            exact fun hmem => hb (hpiece.in_range hmem)
        obtain ⟨hsmall', hrest⟩ :=
          ih (by omega : left + (j + 1) = 16) (nblks + filled1) hpiece.next (by omega)
            (by rw [hfilled.frame.scan_of_child]; exact hnonneg) hsub1
        refine ⟨fun hle32 => hsmall' (by omega), ?_⟩
        intro root' filled hsome
        obtain ⟨hframe', hscan', hfilled', hsub'⟩ := hrest root' filled hsome
        refine ⟨(hfilled.frame.of_child (by omega)).trans hframe',
          hscan'.trans hfilled.frame.scan_of_child, ?_, ?_⟩
        · rw [hfilled', hfilled.filled, hpiece.cut, Nat.add_assoc,
            card_inter_cut _ _ hpiece.in_range]
        · rw [hpiece.cut, ← sup_eq_union, ← sdiff_sdiff_left]
          exact hsub'

theorem Memory.modify_id (root : Memory) (scan : ℕ) : root.modify scan id = root :=
  Function.update_eq_self scan root

theorem subset_of_fill_special
    (hn : n ≤ radix (level + 1)) (hnode : Node root (level + 1) scan blk n free)
    (hle : blk ≤ start) (hend : start + count ≤ blk + n)
    (hspecial : count = radix (level + 1) ∨ (root scan).bmuAvail = 0) :
    free ⊆ Ico start (start + count) := by
  rcases hspecial with hradix | hzero
  · exact hnode.subset.trans (Ico_subset_Ico (by omega) (by omega))
  · rw [hnode.avail, Int.natCast_eq_zero, card_eq_zero] at hzero
    rw [hzero]
    exact empty_subset _

theorem blstMetaFill_spec
    (hfill : Fills fill level) : Fills (blstMetaFill fill level) (level + 1) := by
  intro root scan blk n free start count hn halign hnode _ hle hend
  have havail := hnode.avail
  unfold blstMetaFill
  by_cases hspecial : count = radix (level + 1) ∨ (root scan).bmuAvail = 0
  · have hwhole := subset_of_fill_special hn hnode hle hend hspecial
    rw [if_pos hspecial]
    refine ⟨fun _ => rfl, ?_⟩
    intro root' filled hsome
    rw [Option.some.injEq, Prod.mk.injEq] at hsome
    obtain ⟨rfl, rfl⟩ := hsome
    refine ⟨?_, frame_modify root _ scan _, ?_⟩
    · rw [sdiff_eq_empty_iff_subset.mpr hwhole]
      apply node_empty (hnode.subShape.congr hn (subAgree_modify root level scan _))
      · rw [modify_same]
      · rw [modify_same]
        exact Int.natCast_nonneg _
    · rw [havail, Int.toNat_natCast, inter_eq_left.mpr hwhole]
  · rw [if_neg hspecial]
    have hempty : free ≠ ∅ := by
      rintro rfl
      exact hspecial (Or.inr (by rw [havail]; rfl))
    obtain ⟨root1, hroot1, hsub1, hframe1, havail1, hnonneg1, hhint1⟩ :=
      expand_free id (fun _ => ⟨rfl, id, id⟩) hn hnode hempty
    rw [modify_id] at hroot1
    simp only [hroot1]
    by_cases hlarge : count > radix level
    · rw [if_pos hlarge]
      constructor
      · intro hle32
        have hradix := bmapRadix_le_radix level
        omega
      · intro root' filled hsome
        simp at hsome
    · rw [if_neg hlarge]
      obtain ⟨hsmall, hloop⟩ :=
        fillScan_spec hfill hn halign _ (first_child hn hend) 0
          (pending_first count hle) hend hnonneg1 hsub1
      unfold child at hsmall hloop
      cases hcase : fillScan fill level scan
          (blistMetaRadix - (start - blk) / radix level) root1
          (scan + ((start - blk) / radix level * nextSkip level + 1))
          (blk + (start - blk) / radix level * radix level) start count 0 with
      | none =>
        constructor
        · intro hle32
          have habsurd := hsmall hle32
          rw [hcase] at habsurd
          exact absurd habsurd Bool.false_ne_true
        · intro root' filled hsome
          simp at hsome
      | some result =>
        obtain ⟨root2, nblks⟩ := result
        obtain ⟨hframe2, hscan2, hfilled2, hsub2⟩ := hloop root2 nblks hcase
        rw [Nat.zero_add] at hfilled2
        refine ⟨fun _ => rfl, ?_⟩
        intro root' filled hsome
        rw [Option.some.injEq, Prod.mk.injEq] at hsome
        obtain ⟨rfl, rfl⟩ := hsome
        refine ⟨?_, (hframe1.trans hframe2).trans (frame_modify root2 _ scan _), hfilled2⟩
        apply (hsub2.modify hn _).toNode (sdiff_subset.trans hnode.subset)
        · rw [modify_same, hscan2, havail1, hfilled2]
          have hcard := card_sdiff_add_card_inter free (Ico start (start + count))
          simp only
          omega
        · rw [modify_same, hscan2]
          exact hnonneg1
        · rw [modify_same, hscan2]
          exact hhint1.mono sdiff_subset

theorem blstFill_spec (level : ℕ) : Fills (blstFill level) level := by
  induction level with
  | zero => exact blstLeafFill_spec
  | succ level ih => exact blstMetaFill_spec ih

end DragonFly.Kern
