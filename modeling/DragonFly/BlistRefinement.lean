import DragonFly.BlistFreeing

/-!
# A blist is a set of free blocks

The abstract state is the set of free blocks, and what an operation does to it
is fixed by the operation and its result.  Every blist reached from
`blist_create` has exactly the set obtained this way, and its hints hide nothing.
-/

namespace DragonFly.Kern

open Finset Option

/-! ## Creation -/

theorem le_radix_coverLevel (h : blocks ≤ radix level + fuel) :
    blocks ≤ radix (coverLevel blocks fuel level) := by
  induction fuel generalizing level with
  | zero => exact h
  | succ fuel ih =>
    unfold coverLevel
    split_ifs with hlt
    · apply ih
      have hpos := radix_pos level
      rw [radix_succ]
      omega
    · omega

theorem initScan_spec (scan : ℕ)
    (hinit : ∀ root scan n, n ≤ radix level → Shape (init root scan n).1 level scan n ∧
        Frame root (init root scan n).1 level scan) (hn : n ≤ radix (level + 1)) (left : ℕ)
    (hleft : left + j = 16) (hj : j ≤ children level n) (root : Memory) (memindex : ℕ)
    (hshape : ∀ k < j, Shape root level (child level scan k) (childBlocks level n k)) :
    SubShape (initScan init level scan left root (j * nextSkip level + 1)
        (n - j * radix level) memindex).1 level scan n ∧
      Frame root (initScan init level scan left root
        (j * nextSkip level + 1) (n - j * radix level) memindex).1 (level + 1) scan ∧
      (initScan init level scan left root (j * nextSkip level + 1)
        (n - j * radix level) memindex).1 scan = root scan := by
  have hle := children_le hn
  induction left generalizing j root memindex with
  | zero =>
    have hall : children level n = j := by omega
    refine ⟨⟨?_, ?_⟩, Frame.refl _ _ _, rfl⟩
    · rw [hall]
      exact hshape
    · intro hlt
      simp only [blistMetaRadix] at hlt
      omega
  | succ left ih =>
    have hsucc : (j + 1) * radix level = j * radix level + radix level := Nat.succ_mul _ _
    have hindex : j * nextSkip level + 1 + nextSkip level = (j + 1) * nextSkip level + 1 := by ring
    by_cases hmore : j * radix level < n
    · have hlt : j < children level n := lt_children_iff.mpr hmore
      have hstep : ∃ memindex', initScan init level scan (left + 1) root
          (j * nextSkip level + 1) (n - j * radix level) memindex = initScan init level scan left
              (init root (child level scan j) (childBlocks level n j)).1
              ((j + 1) * nextSkip level + 1)
              (n - (j + 1) * radix level) memindex' := by
        rw [← hindex]
        by_cases hwhole : n - j * radix level ≥ radix level
        · have hblocks : childBlocks level n j = radix level := by
            unfold childBlocks
            omega
          have hrest : n - (j + 1) * radix level = n - j * radix level - radix level := by omega
          rw [hblocks, hrest]
          rw [initScan, if_pos hwhole]
          exact ⟨_, rfl⟩
        · have hblocks : childBlocks level n j = n - j * radix level := by
            unfold childBlocks
            omega
          have hrest : n - (j + 1) * radix level = 0 := by omega
          rw [hblocks, hrest]
          rw [initScan, if_neg hwhole, if_pos (by omega)]
          exact ⟨_, rfl⟩
      obtain ⟨memindex', hstep⟩ := hstep
      obtain ⟨hshape1, hframe1⟩ :=
        hinit root (child level scan j) (childBlocks level n j) (childBlocks_le level n j)
      obtain ⟨hshape', hframe', hscan'⟩ :=
        ih (by omega : left + (j + 1) = 16) hlt _ memindex' (by
          intro k hk
          by_cases hkj : k = j
          · subst hkj
            exact hshape1
          · exact (hshape k (by omega)).congr (childBlocks_le level n k)
              (hframe1.agree_sibling hkj))
      rw [hstep]
      exact ⟨hshape', (hframe1.of_child (by omega)).trans hframe',
        hscan'.trans hframe1.scan_of_child⟩
    · have hall : children level n = j := by
        by_contra hne
        exact hmore (lt_children_iff.mp (by omega))
      have hpos := radix_pos level
      obtain ⟨f, hf⟩ : ∃ f : Blmeta → Blmeta, f = fun node =>
          { node with bmBighint := -1 } := ⟨_, rfl⟩
      have hstop : (initScan init level scan (left + 1) root
          (j * nextSkip level + 1) (n - j * radix level) memindex).1 =
            root.modify (child level scan j) f := by
        rw [initScan, if_neg (by omega), if_neg (by omega), hf]
        rfl
      have hframe := frame_modify root level (child level scan j) f
      rw [hstop]
      refine ⟨⟨?_, ?_⟩, hframe.of_child (by omega),
        hframe.scan_of_child⟩
      · intro k hk
        exact (hshape k (by omega)).congr (childBlocks_le level n k)
          (hframe.agree_sibling (by omega))
      · intro _
        rw [hall, Memory.modify_same, hf]

theorem blstRadixInit_zero (root : Memory) (scan n : ℕ) :
    (blstRadixInit 0 root scan n).1 = root.modify scan (setAllocated 0) := by
  simp [blstRadixInit, Memory.modify, setAllocated]

theorem blstRadixInit_succ (level : ℕ) (root : Memory) (scan n : ℕ) :
    (blstRadixInit (level + 1) root scan n).1 =
      (initScan (blstRadixInit level) level scan blistMetaRadix
        (root.modify scan (setAllocated (level + 1))) 1 n 0).1 := by
  simp [blstRadixInit, blstMetaInit, Memory.modify, setAllocated]

theorem blstRadixInit_spec (root : Memory) (scan n : ℕ) (hn : n ≤ radix level) :
    Shape (blstRadixInit level root scan n).1 level scan n ∧
      Frame root (blstRadixInit level root scan n).1 level scan ∧
      (blstRadixInit level root scan n).1 scan = setAllocated level (root scan) := by
  induction level generalizing root scan n with
  | zero =>
    rw [blstRadixInit_zero]
    refine ⟨?_, frame_modify root 0 scan _, root.modify_same scan _⟩
    unfold Shape
    rw [Memory.modify_same]
    exact setAllocated_bighint 0 _
  | succ level ih =>
    have hinit : ∀ root scan n, n ≤ radix level →
        Shape (blstRadixInit level root scan n).1 level scan n ∧
          Frame root (blstRadixInit level root scan n).1 level scan :=
      fun root scan n hn => ⟨(ih root scan n hn).1, (ih root scan n hn).2.1⟩
    have hscan := initScan_spec scan hinit hn blistMetaRadix
      (by rfl : 16 + 0 = 16) (Nat.zero_le _) (root.modify scan (setAllocated (level + 1))) 0
      (fun k hk => absurd hk (Nat.not_lt_zero k))
    rw [Nat.zero_mul, Nat.zero_mul, Nat.zero_add, Nat.sub_zero,
      ← blstRadixInit_succ, Memory.modify_same] at hscan
    obtain ⟨hshape, hframe, hown⟩ := hscan
    refine ⟨shape_succ.mpr ⟨?_, hshape⟩, (frame_modify root _ scan _).trans hframe, hown⟩
    rw [hown]
    exact setAllocated_bighint _ _

/-! ## The abstract set -/

inductive BlistOp where
  | alloc (count : ℕ)
  | allocat (count : ℕ) (blkat : ℤ)
  | free (blkno count : ℕ)
  | fill (blkno count : ℕ)
  deriving DecidableEq

inductive BlistResult where
  | block (blk : Option ℕ)
  | done
  | filled (count : ℕ)
  deriving DecidableEq

def Blist.perform (bl : Blist) : BlistOp → Option (Blist × BlistResult)
  | .alloc count =>
    (blistAlloc bl count).map fun (bl, blk) => (bl, .block blk)
  | .allocat count blkat =>
    (blistAllocat bl count blkat).map fun (bl, blk) => (bl, .block blk)
  | .free blkno count => (blistFree bl blkno count).map fun bl => (bl, .done)
  | .fill blkno count =>
    (blistFill bl blkno count).map fun (bl, n) => (bl, .filled n)

/-- What callers promise: allocations are small, and a range lies in the list
and, if it is to be freed, is allocated.  A list that is one leaf does not shift
by the width of a word. -/
def BlistOp.Admissible (blocks : ℕ) (free : Finset ℕ) : BlistOp → Prop
  | .alloc count => 1 ≤ count ∧ count ≤ blistMaxAlloc
  | .allocat count _ => 1 ≤ count ∧ count ≤ blistMaxAlloc
  | .free blkno count =>
    (blocks ≤ blistBmapRadix → Shiftable blkno count) ∧ blkno + count ≤ blocks ∧
      Disjoint free (Ico blkno (blkno + count))
  | .fill blkno count =>
    (blocks ≤ blistBmapRadix → Shiftable blkno count) ∧ blkno + count ≤ blocks

def BlistOp.after (free : Finset ℕ) : BlistOp → BlistResult → Finset ℕ
  | .alloc count, .block (some blk) => free \ Ico blk (blk + count)
  | .allocat count _, .block (some blk) =>
    free \ Ico blk (blk + count)
  | .free blkno count, _ => free ∪ Ico blkno (blkno + count)
  | .fill blkno count, _ => free \ Ico blkno (blkno + count)
  | _, _ => free

def BlistOp.Correct (free : Finset ℕ) : BlistOp → BlistResult → Prop
  | .alloc _, .block none => True
  | .alloc count, .block (some blk) => Ico blk (blk + count) ⊆ free
  | .allocat _ _, .block none => True
  | .allocat count _, .block (some blk) =>
    Ico blk (blk + count) ⊆ free
  | .free _ _, .done => True
  | .fill blkno count, .filled n =>
    n = (free ∩ Ico blkno (blkno + count)).card
  | _, _ => False

structure Blist.Tracks (bl : Blist) (free : Finset ℕ) : Prop where
  fits : bl.blBlocks ≤ radix bl.level
  node : Node bl.blRoot bl.level 0 0 bl.blBlocks free
  blFree : bl.blFree = free.card

section Operations

variable {bl bl' : Blist} {free : Finset ℕ} {blkno count : ℕ} {op : BlistOp}
  {result : BlistResult}

theorem Blist.Tracks.subset_range (h : bl.Tracks free) : free ⊆ Finset.range bl.blBlocks := by
  have hsub := h.node.subset
  rwa [Nat.zero_add, ← range_eq_Ico] at hsub

theorem blistCreate_tracks (memory : Memory) (blocks : ℕ) :
    (blistCreate memory blocks).Tracks ∅ := by
  have hfits : blocks ≤ radix (coverLevel blocks blocks 0) :=
    le_radix_coverLevel (Nat.le_add_left _ _)
  obtain ⟨hshape, -, hown⟩ := blstRadixInit_spec memory 0 blocks hfits
  exact ⟨hfits, ⟨hshape, rep_setAllocated hown, hinted_empty hshape.bighint⟩, rfl⟩

section

variable (h : bl.Tracks free)
include h

theorem Blist.Tracks.allocat (blkat : ℤ) (hpos : 1 ≤ count) (hmax : count ≤ blistMaxAlloc) :
    ∃ bl' result, blistAllocat bl count blkat = some (bl', result) ∧
      bl'.blBlocks = bl.blBlocks ∧ taken count result ⊆ free ∧
      bl'.Tracks (free \ taken count result) ∧ (result = none → NoRun free count blkat) := by
  obtain ⟨root', result, hsome, hallocated⟩ :=
    blstAlloc_spec blkat hpos hmax bl.level bl.blRoot 0 0 bl.blBlocks free
      h.fits (dvd_zero 32) h.node
  unfold blistAllocat
  rw [hsome]
  cases result with
  | none =>
    refine ⟨_, none, rfl, rfl, hallocated.subset, ⟨h.fits, hallocated.node, ?_⟩, hallocated.noRun⟩
    rw [taken, sdiff_empty]
    exact h.blFree
  | some blk =>
    refine ⟨_, some blk, rfl, rfl, hallocated.subset, ⟨h.fits, hallocated.node, ?_⟩,
      hallocated.noRun⟩
    have hcard := card_sdiff_add_card_eq_card hallocated.subset
    rw [card_taken] at hcard
    simp only [h.blFree]
    omega

theorem Blist.Tracks.shiftable (hshift : bl.blBlocks ≤ blistBmapRadix → Shiftable blkno count)
    (hlevel : bl.level = 0) : Shiftable blkno count := by
  have hfits := h.fits
  rw [hlevel] at hfits
  exact hshift hfits

theorem Blist.Tracks.release
    (hshift : bl.blBlocks ≤ blistBmapRadix → Shiftable blkno count)
    (hin : blkno + count ≤ bl.blBlocks)
    (hdisjoint : Disjoint free (Ico blkno (blkno + count))) :
    ∃ bl', blistFree bl blkno count = some bl' ∧ bl'.blBlocks = bl.blBlocks ∧
      bl'.Tracks (free ∪ Ico blkno (blkno + count)) := by
  obtain ⟨root', hsome, hnode, -⟩ :=
    blstFree_spec bl.level bl.blRoot 0 0 bl.blBlocks free blkno count
      h.fits (dvd_zero 32) h.node (h.shiftable hshift) (Nat.zero_le _) (by omega) hdisjoint
  unfold blistFree
  rw [hsome]
  refine ⟨_, rfl, rfl, h.fits, hnode, ?_⟩
  rw [card_union_of_disjoint hdisjoint, Nat.card_Ico, Nat.add_sub_cancel_left]
  simp only [h.blFree]
  push_cast
  rfl

theorem Blist.Tracks.fill
    (hshift : bl.blBlocks ≤ blistBmapRadix → Shiftable blkno count)
    (hin : blkno + count ≤ bl.blBlocks) :
    (count ≤ 32 → (blistFill bl blkno count).isSome = true) ∧
    ∀ bl' n, blistFill bl blkno count = some (bl', n) → bl'.blBlocks = bl.blBlocks ∧
      n = (free ∩ Ico blkno (blkno + count)).card ∧
      bl'.Tracks (free \ Ico blkno (blkno + count)) := by
  obtain ⟨hsmall, hfill⟩ :=
    blstFill_spec bl.level bl.blRoot 0 0 bl.blBlocks free blkno count
      h.fits (dvd_zero 32) h.node (h.shiftable hshift) (Nat.zero_le _) (by omega)
  unfold blistFill
  cases hcase : blstFill bl.level bl.blRoot 0 blkno count 0 with
  | none =>
    rw [hcase] at hsmall
    exact ⟨fun hle => absurd (hsmall hle) Bool.false_ne_true,
      fun bl' n hsome => by simp at hsome⟩
  | some result =>
    obtain ⟨root', filled⟩ := result
    have hfilled := hfill root' filled hcase
    refine ⟨fun _ => rfl, ?_⟩
    intro bl' n hsome
    rw [some.injEq, Prod.mk.injEq] at hsome
    obtain ⟨rfl, rfl⟩ := hsome
    refine ⟨rfl, hfilled.filled, h.fits, hfilled.node, ?_⟩
    have hcard := card_sdiff_add_card_inter free (Ico blkno (blkno + count))
    have hcount := hfilled.filled
    simp only [h.blFree]
    omega

theorem Blist.Tracks.perform_returns (hop : op.Admissible bl.blBlocks free)
    (hsmall : ∀ blkno count, op = .fill blkno count → count ≤ blistBmapRadix) :
    ∃ bl' result, bl.perform op = some (bl', result) := by
  cases op with
  | alloc count =>
    obtain ⟨bl', result, hsome, -⟩ := h.allocat 0 hop.1 hop.2
    exact ⟨bl', .block result, congrArg (Option.map _) hsome⟩
  | allocat count blkat =>
    obtain ⟨bl', result, hsome, -⟩ := h.allocat blkat hop.1 hop.2
    exact ⟨bl', .block result, congrArg (Option.map _) hsome⟩
  | free blkno count =>
    obtain ⟨bl', hsome, -⟩ := h.release hop.1 hop.2.1 hop.2.2
    exact ⟨bl', .done, congrArg (Option.map _) hsome⟩
  | fill blkno count =>
    have hreturns := (h.fill hop.1 hop.2).1 (hsmall blkno count rfl)
    obtain ⟨⟨bl', n⟩, hsome⟩ := Option.isSome_iff_exists.mp hreturns
    exact ⟨bl', .filled n, congrArg (Option.map _) hsome⟩

theorem Blist.Tracks.perform
    (hop : op.Admissible bl.blBlocks free) (hperform : bl.perform op = some (bl', result)) :
    bl'.blBlocks = bl.blBlocks ∧ op.Correct free result ∧ bl'.Tracks (op.after free result) := by
  have halloc : ∀ {count : ℕ} (blkat : ℤ), 1 ≤ count → count ≤ blistMaxAlloc →
      (blistAllocat bl count blkat).map (fun (bl, blk) => (bl, BlistResult.block blk)) =
        some (bl', result) →
      ∃ blk, result = .block blk ∧ bl'.blBlocks = bl.blBlocks ∧
        taken count blk ⊆ free ∧ bl'.Tracks (free \ taken count blk) := by
    intro count blkat hpos hmax hmap
    obtain ⟨bl1, blk, hsome, hblocks, hsub, hrep, -⟩ := h.allocat blkat hpos hmax
    rw [hsome, map_some, some.injEq, Prod.mk.injEq] at hmap
    obtain ⟨rfl, rfl⟩ := hmap
    exact ⟨blk, rfl, hblocks, hsub, hrep⟩
  cases op with
  | alloc count =>
    obtain ⟨blk, rfl, hblocks, hsub, hrep⟩ := halloc 0 hop.1 hop.2 hperform
    cases blk with
    | none =>
      rw [taken, sdiff_empty] at hrep
      exact ⟨hblocks, trivial, hrep⟩
    | some blk => exact ⟨hblocks, hsub, hrep⟩
  | allocat count blkat =>
    obtain ⟨blk, rfl, hblocks, hsub, hrep⟩ := halloc blkat hop.1 hop.2 hperform
    cases blk with
    | none =>
      rw [taken, sdiff_empty] at hrep
      exact ⟨hblocks, trivial, hrep⟩
    | some blk => exact ⟨hblocks, hsub, hrep⟩
  | free blkno count =>
    obtain ⟨bl1, hsome, hblocks, hrep⟩ := h.release hop.1 hop.2.1 hop.2.2
    simp only [Blist.perform, hsome, map_some, some.injEq, Prod.mk.injEq] at hperform
    obtain ⟨rfl, rfl⟩ := hperform
    exact ⟨hblocks, trivial, hrep⟩
  | fill blkno count =>
    unfold Blist.perform at hperform
    obtain ⟨⟨bl1, n⟩, hsome, heq⟩ := map_eq_some_iff.mp hperform
    rw [Prod.mk.injEq] at heq
    obtain ⟨rfl, rfl⟩ := heq
    exact (h.fill hop.1 hop.2).2 bl1 n hsome

end

end Operations

/-! ## Runs -/

/-- The blists reached from `blist_create`, with the blocks that are free by
the operations performed and their results. -/
inductive Reached (blocks : ℕ) : Blist → Finset ℕ → Prop
  | create (memory : Memory) (hpos : 1 ≤ blocks)
      (hmax : blocks ≤ blistMaxblks) :
      Reached blocks (blistCreate memory blocks) ∅
  | step (hreached : Reached blocks bl free) (hop : op.Admissible blocks free)
      (hperform : bl.perform op = some (bl', result)) :
      Reached blocks bl' (op.after free result)

theorem Reached.tracks (h : Reached blocks bl free) : bl.blBlocks = blocks ∧ bl.Tracks free := by
  induction h with
  | create memory _ _ => exact ⟨rfl, blistCreate_tracks memory blocks⟩
  | step _ hop hperform ih =>
    obtain ⟨hblocks, hrep⟩ := ih
    rw [← hblocks] at hop
    obtain ⟨hblocks', -, hrep'⟩ := hrep.perform hop hperform
    exact ⟨hblocks'.trans hblocks, hrep'⟩

/-- A blist refines the set of its free blocks: its count is the size of the
set, operations return, and their results are those the set admits. -/
theorem Reached.refines_free_set
    {blocks : ℕ} {bl : Blist} {free : Finset ℕ} (h : Reached blocks bl free) :
    bl.blFree = free.card ∧ free ⊆ Finset.range blocks ∧ ∀ op : BlistOp, op.Admissible blocks free →
        ((∀ blkno count, op = .fill blkno count → count ≤ blistBmapRadix) →
          ∃ bl' result, bl.perform op = some (bl', result)) ∧
        ∀ bl' result, bl.perform op = some (bl', result) → op.Correct free result ∧
            bl'.blFree = (op.after free result).card := by
  obtain ⟨rfl, hrep⟩ := h.tracks
  refine ⟨hrep.blFree, hrep.subset_range, ?_⟩
  intro op hop
  refine ⟨hrep.perform_returns hop, ?_⟩
  intro bl' result hperform
  obtain ⟨-, hcorrect, hrep'⟩ := hrep.perform hop hperform
  exact ⟨hcorrect, hrep'.blFree⟩

/-- A list of 1000 blocks, of which blocks 7 to 606 have been freed. -/
theorem exists_freed_list : ∃ bl, Reached 1000 bl (Ico 7 607) := by
  have hcreate : Reached 1000 (blistCreate (fun _ => ⟨0, 0, 0⟩) 1000) ∅ :=
    .create _ (by decide) (by decide)
  have hop : (BlistOp.free 7 600).Admissible 1000 ∅ :=
    ⟨fun _ _ => by decide, by decide, disjoint_empty_left _⟩
  obtain ⟨bl, result, hperform⟩ := hcreate.tracks.2.perform_returns hop (by intro _ _ h; cases h)
  have hstep := Reached.step hcreate hop hperform
  exact ⟨bl, by simpa [BlistOp.after] using hstep⟩

theorem Reached.freed_list_refined : ∃ bl, Reached 1000 bl (Ico 7 607) ∧ bl.blFree = 600 := by
  obtain ⟨bl, hreached⟩ := exists_freed_list
  refine ⟨bl, hreached, ?_⟩
  rw [hreached.refines_free_set.1, Nat.card_Ico]
  rfl

/-- Freeing no blocks from the first block of a list that is one leaf on shifts by the width of a
word. -/
theorem empty_free_undefined : ∃ bl, Reached 32 bl ∅ ∧ blistFree bl 0 0 = none :=
  ⟨_, .create (fun _ => ⟨0, 0, 0⟩) (by decide) (by decide), rfl⟩

end DragonFly.Kern
