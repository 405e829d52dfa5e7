import DragonFly.TcpReassembly
import DragonFly.TcpSack
import DragonFly.RangeList

/-!
# The scoreboard as a list of ranges

Inside the send window the blocks of a scoreboard are ranges of stream positions.
On them a lookup finds the range around a position or the last one before it,
whatever the hint is, and an insertion absorbs the ranges the new block reaches.
-/

namespace DragonFly.Netinet

open RangeList List Apart

/-- The block that names a range of positions. -/
def sackBlock (r : ℕ × ℕ) : SackBlock :=
  ⟨serial 32 r.1, serial 32 r.2⟩

/-! ## Comparing sequence numbers -/

variable {a b : ℕ}

theorem seqGeq_near (hlow : (b : ℤ) - a ≤ 2 ^ 31) (hhigh : (a : ℤ) - b < 2 ^ 31) :
    seqGeq (serial 32 a) (serial 32 b) = true ↔ b ≤ a := by
  have hsub : (serial 32 a - serial 32 b).toInt = (a : ℤ) - b :=
    Serial.toInt_sub (w := 31) hlow hhigh
  unfold seqGeq
  rw [hsub, decide_eq_true_eq]
  omega

theorem seqLeq_near (hlow : (b : ℤ) - a ≤ 2 ^ 31) (hhigh : (a : ℤ) - b < 2 ^ 31) :
    seqLeq (serial 32 a) (serial 32 b) = true ↔ a ≤ b := by
  have hsub : (serial 32 a - serial 32 b).toInt = (a : ℤ) - b :=
    Serial.toInt_sub (w := 31) hlow hhigh
  unfold seqLeq
  rw [hsub, decide_eq_true_eq]
  omega

theorem seqGeq_serial (ha : nxt ≤ a) (ha' : a ≤ nxt + maxWindow) (hb : nxt ≤ b)
    (hb' : b ≤ nxt + maxWindow) : seqGeq (serial 32 a) (serial 32 b) = true ↔ b ≤ a := by
  unfold maxWindow at ha' hb'
  exact seqGeq_near (by omega) (by omega)

namespace Scoreboard

/-! ## Looking up -/

variable {ranges pre post : List (ℕ × ℕ)} {low high p i a b : ℕ} {scb : Scoreboard} {w : ℕ × ℕ}

/-- The wrapping comparisons of a position with a block agree with the true ones. -/
theorem seq_iff_of_mem (h : Apart low high ranges) (hr : r ∈ ranges)
    (hwindow : high ≤ low + maxWindow) (hp : low ≤ p) (hp' : p ≤ high) :
    (seqGt (sackBlock r).sblkEnd (serial 32 p) = true ↔ p < r.2) ∧
      (seqGeq (serial 32 p) (sackBlock r).sblkStart = true ↔ r.1 ≤ p) := by
  obtain ⟨hlow, hproper, hhigh⟩ := h.bounds r hr
  constructor
  · exact seqGt_serial (by omega : low ≤ r.2) (by omega) hp (by omega)
  · exact seqGeq_serial hp (by omega) (by omega : low ≤ r.1) (by omega)

theorem lookupLoop_toEnd (cur : ℕ) (h : Apart low high ranges) (hwindow : high ≤ low + maxWindow)
    (hp : low ≤ p) (hp' : p ≤ high) (hne : ranges ≠ []) :
    lookupLoop (serial 32 p) none (cur + ranges.length).ppred (ranges.map sackBlock) cur =
      some (locate p cur ranges) := by
  induction ranges generalizing cur with
  | nil => exact absurd rfl hne
  | cons r rest ih =>
    obtain ⟨hlow, hproper, hhigh⟩ := h.bounds r mem_cons_self
    obtain ⟨hgt, hgeq⟩ := seq_iff_of_mem h (by simp : r ∈ _) hwindow hp hp'
    rw [map_cons, lookupLoop, locate]
    simp only [hgt, hgeq]
    by_cases hstop : p < r.2
    · rw [if_pos hstop, if_pos hstop]
      split_ifs <;> rfl
    · rw [if_neg hstop, if_neg hstop]
      cases rest with
      | nil => rfl
      | cons r' rest =>
        have hrest := (cons_iff.mp h).2.mono (by omega : low ≤ r.2) le_rfl
        have hnext := ih (cur + 1) hrest (by simp)
        rw [Nat.add_right_comm] at hnext
        rw [length_cons, ← Nat.add_assoc, if_neg (by simp)]
        exact hnext

theorem lookupLoop_toHint (cur : ℕ) (h : Apart low high (pre ++ r :: post))
    (hwindow : high ≤ low + maxWindow) (hp : low ≤ p) (hp' : p ≤ high) (hbehind : p < r.1) :
    lookupLoop (serial 32 p) (some (cur + pre.length)) (cur + pre.length).ppred
        ((pre ++ r :: post).map sackBlock) cur = some (locate p cur (pre ++ r :: post)) := by
  have hfront : ∀ i, locate p i (r :: post) = (i.ppred, false) := by
    intro i
    have hproper := (h.bounds r (by simp)).2.1
    rw [locate, if_pos (by omega), if_neg (by omega)]
  induction pre generalizing cur with
  | nil =>
    obtain ⟨hlow, hproper, hhigh⟩ := h.bounds r (by simp)
    obtain ⟨hgt, hgeq⟩ := seq_iff_of_mem h (by simp : r ∈ _) hwindow hp hp'
    rw [nil_append, hfront, map_cons, lookupLoop,
      if_pos (hgt.mpr (by omega)), if_neg (by rw [hgeq]; omega)]
  | cons q pre ih =>
    obtain ⟨hlow, hproper, hhigh⟩ := h.bounds q (by simp)
    obtain ⟨hgt, hgeq⟩ := seq_iff_of_mem h (by simp : q ∈ _) hwindow hp hp'
    have hrest : Apart low high (pre ++ r :: post) :=
      (cons_iff.mp h).2.mono (by omega : low ≤ q.2) le_rfl
    rw [cons_append, map_cons, lookupLoop, locate]
    simp only [hgt, hgeq]
    by_cases hstop : p < q.2
    · rw [if_pos hstop, if_pos hstop]
      split_ifs <;> rfl
    · have hmore : (pre ++ r :: post).map sackBlock ≠ [] := by simp
      rw [if_neg hstop, if_neg hstop]
      simp only [if_neg hmore, length_cons]
      cases pre with
      | nil =>
        rw [nil_append, hfront]
        exact if_pos rfl
      | cons q' pre =>
        have hnext := ih (cur + 1) hrest
        rw [Nat.add_right_comm, Nat.add_assoc] at hnext
        rw [if_neg (by simp)]
        exact hnext

/-- The blocks are the ranges, they are counted and within the limit, and the hint
points to one of them. -/
structure Holds (scb : Scoreboard) (low high : ℕ) (ranges : List (ℕ × ℕ)) :
    Prop where
  blocks : scb.sackblocks = ranges.map sackBlock
  apart : Apart low high ranges
  count : scb.nblocks = ranges.length
  limit : ranges.length ≤ maxSavedBlocks
  hint : ∀ j, scb.lastfound = some j → j < ranges.length

theorem getElem?_working (pre post : List (ℕ × ℕ)) (w : ℕ × ℕ) :
    ((pre ++ w :: post).map sackBlock)[pre.length]? = some (sackBlock w) := by
  simp

theorem sackBlockSearch_eq (h : scb.Holds low high ranges) (hwindow : high ≤ low + maxWindow)
    (hp : low ≤ p) (hp' : p ≤ high) (hne : ranges ≠ []) :
    scb.sackBlockSearch (serial 32 p) = some (locate p 0 ranges) := by
  unfold sackBlockSearch
  rw [h.blocks, length_map]
  cases hfound : scb.lastfound with
  | none =>
    have hend := lookupLoop_toEnd 0 h.apart hwindow hp hp' hne
    rw [Nat.zero_add] at hend
    exact hend
  | some j =>
    have hlt := h.hint j hfound
    obtain ⟨pre, r, post, hsplit, hlen⟩ :
        ∃ pre r post, ranges = pre ++ r :: post ∧ pre.length = j :=
      ⟨ranges.take j, ranges.get ⟨j, hlt⟩, ranges.drop (j + 1), by simp, by simp; omega⟩
    have hr := h.apart.bounds r (by simp [hsplit])
    have hgeq : seqGeq (serial 32 p) (sackBlock r).sblkStart = true ↔ r.1 ≤ p :=
      seqGeq_serial hp (by omega) (by omega : low ≤ r.1) (by omega)
    have happart := h.apart
    subst hsplit hlen
    have hdrop : ((pre ++ r :: post).map sackBlock).drop pre.length =
        (r :: post).map sackBlock := by
      rw [← map_drop, drop_left]
    simp only [getElem?_working, hdrop]
    obtain ⟨-, hpost, hcross⟩ := append_iff.mp happart
    by_cases hfrom : r.1 ≤ p
    · rw [if_pos (hgeq.mpr hfrom)]
      -- the ranges before the hint all end before it starts
      have hpassed : ∀ q ∈ pre, q.2 ≤ p := by
        intro q hq
        have hlt := hcross q hq r mem_cons_self
        omega
      have hend := lookupLoop_toEnd pre.length hpost hwindow hp hp' (by simp)
      rw [locate_skip hpassed, Nat.zero_add, length_append]
      exact hend
    · rw [if_neg (fun hle => hfrom (hgeq.mp hle))]
      have hbefore := lookupLoop_toHint 0 happart hwindow hp hp' (not_le.mp hfrom)
      rw [Nat.zero_add] at hbefore
      exact hbefore

theorem sackBlockLookup_eq (h : scb.Holds low high ranges) (hwindow : high ≤ low + maxWindow)
    (hp : low ≤ p) (hp' : p ≤ high) :
    scb.sackBlockLookup (serial 32 p) = some ({ scb with lastfound := (locate p 0 ranges).1 },
        locate p 0 ranges) := by
  by_cases hne : ranges = []
  · have hnone : scb.lastfound = none := by
      cases hfound : scb.lastfound with
      | none => rfl
      | some j =>
        have hlt := h.hint j hfound
        rw [hne] at hlt
        simp at hlt
    rw [sackBlockLookup, if_pos (by rw [h.blocks, hne]; rfl), hne]
    simp only [locate, Nat.ppred, ← hnone]
  · rw [sackBlockLookup, if_neg (by rw [h.blocks]; simp [hne]),
      sackBlockSearch_eq h hwindow hp hp' hne]
    rfl

/-! ## Counting and the hint -/

/-- The blocks are counted and the hint points to one of them. -/
structure Counted (scb : Scoreboard) : Prop where
  count : scb.nblocks = scb.sackblocks.length
  hint : ∀ j, scb.lastfound = some j → j < scb.sackblocks.length

theorem Counted.removeBlock
    (h : scb.Counted) (hi : i < scb.sackblocks.length) : (scb.removeBlock i).Counted := by
  have hlen : (scb.removeBlock i).sackblocks.length = scb.sackblocks.length - 1 := by
    simp only [Scoreboard.removeBlock, length_eraseIdx, if_pos hi]
  constructor
  · rw [hlen]
    simp only [Scoreboard.removeBlock, h.count]
    omega
  · intro j hj
    rw [hlen]
    simp only [Scoreboard.removeBlock] at hj
    cases hfound : scb.lastfound with
    | none => simp [hfound, hintRemoved] at hj
    | some k =>
      have hk := h.hint k hfound
      rw [hfound, hintRemoved] at hj
      split_ifs at hj with heq hlt
      · cases hj
        omega
      · cases hj
        omega

theorem Counted.insertAt (h : scb.Counted) (block : SackBlock)
    (hi : i ≤ scb.sackblocks.length) : (scb.insertAt i block).Counted := by
  have hlen : (scb.insertAt i block).sackblocks.length = scb.sackblocks.length + 1 := by
    simp only [Scoreboard.insertAt, length_insertIdx, if_pos hi]
  constructor
  · rw [hlen]
    simp only [Scoreboard.insertAt, h.count]
    omega
  · intro j hj
    rw [hlen]
    simp only [Scoreboard.insertAt] at hj
    cases hfound : scb.lastfound with
    | none => simp [hfound, hintInserted] at hj
    | some k =>
      have hk := h.hint k hfound
      rw [hfound, hintInserted] at hj
      split_ifs at hj with hle
      · cases hj
        omega
      · cases hj
        omega

theorem Counted.setEnd (h : scb.Counted) (i : ℕ) (stop : TcpSeq) : (scb.setEnd i stop).Counted := by
  constructor
  · simp only [Scoreboard.setEnd, length_modify]
    exact h.count
  · simp only [Scoreboard.setEnd, length_modify]
    exact h.hint

/-! ## Consolidating -/

theorem getElem?_behind (pre post : List (ℕ × ℕ)) (w : ℕ × ℕ) :
    ((pre ++ w :: post).map sackBlock)[pre.length + 1]? = post.head?.map sackBlock := by
  cases post with
  | nil => simp
  | cons r rest =>
    rw [getElem?_map, getElem?_append_right (by omega)]
    simp

theorem eraseIdx_behind (pre rest : List (ℕ × ℕ)) (w r : ℕ × ℕ) :
    ((pre ++ w :: r :: rest).map sackBlock).eraseIdx (pre.length + 1) =
      (pre ++ w :: rest).map sackBlock := by
  rw [map_append, eraseIdx_append_of_length_le (by simp)]
  simp

theorem modify_working (pre post : List (ℕ × ℕ)) (w : ℕ × ℕ) (stop : ℕ) :
    ((pre ++ w :: post).map sackBlock).modify pre.length
        (fun b => { b with sblkEnd := serial 32 stop }) =
      (pre ++ (w.1, stop) :: post).map sackBlock := by
  induction pre with
  | nil => rfl
  | cons q pre ih =>
    rw [cons_append, map_cons, length_cons, modify_succ_cons, ih]
    rfl

theorem removeOverlapped_next (hworking : scb.sackblocks[i]? = some working)
    (hnext : scb.sackblocks[i + 1]? = some sb) :
    scb.removeOverlapped i = if seqGeq working.sblkEnd sb.sblkEnd then
        (scb.removeBlock (i + 1)).removeOverlapped i
      else scb := by
  rw [removeOverlapped]
  split
  · rename_i heq heq'
    rw [hworking, Option.some.injEq] at heq
    rw [hnext, Option.some.injEq] at heq'
    rw [heq, heq']
  · rename_i hnone
    exact absurd hnext (hnone working sb hworking)

theorem removeOverlapped_end (hnext : scb.sackblocks[i + 1]? = none) :
    scb.removeOverlapped i = scb := by
  rw [removeOverlapped]
  split
  · rename_i heq
    rw [hnext] at heq
    cases heq
  · rfl

/-- Consolidation keeps the count and the hint, and the ranges behind the working
one are absorbed. -/
theorem consolidateRight_blocks
    (hblocks : scb.sackblocks = (pre ++ w :: post).map sackBlock) (hcounted : scb.Counted)
    (hw : low ≤ w.2) (hw' : w.2 ≤ high) (hpost : Apart low high post)
    (hwindow : high ≤ low + maxWindow) :
    (scb.consolidateRight pre.length).sackblocks = (pre ++ absorb w post).map sackBlock ∧
      (scb.consolidateRight pre.length).Counted := by
  have hworking : scb.sackblocks[pre.length]? = some (sackBlock w) := by
    rw [hblocks]
    exact getElem?_working pre post w
  have hbehind : scb.sackblocks[pre.length + 1]? = post.head?.map sackBlock := by
    rw [hblocks]
    exact getElem?_behind pre post w
  induction post generalizing scb with
  | nil =>
    have hmerge : scb.mergePartial pre.length = scb := by
      unfold mergePartial
      rw [hworking, hbehind]
      rfl
    rw [consolidateRight, removeOverlapped_end hbehind, hmerge]
    exact ⟨hblocks, hcounted⟩
  | cons r rest ih =>
    obtain ⟨hr, hrest⟩ := cons_iff.mp hpost
    have hend : seqGeq (sackBlock w).sblkEnd (sackBlock r).sblkEnd = true ↔ r.2 ≤ w.2 :=
      seqGeq_serial hw (by omega) (by omega : low ≤ r.2) (by omega)
    have hstart : seqGeq (sackBlock w).sblkEnd (sackBlock r).sblkStart = true ↔ r.1 ≤ w.2 :=
      seqGeq_serial hw (by omega) (by omega : low ≤ r.1) (by omega)
    have hplace : pre.length + 1 < scb.sackblocks.length := by
      rw [hblocks]
      simp
    have herase : (scb.removeBlock (pre.length + 1)).sackblocks =
        (pre ++ w :: rest).map sackBlock := by
      simp only [removeBlock, hblocks]
      exact eraseIdx_behind pre rest w r
    have hremoved := hcounted.removeBlock hplace
    rw [consolidateRight, removeOverlapped_next hworking hbehind, absorb]
    by_cases hinside : r.2 ≤ w.2
    · rw [if_pos (hend.mpr hinside), if_pos hinside]
      apply ih herase hremoved (hrest.mono (by omega) le_rfl)
      · rw [herase]
        exact getElem?_working pre rest w
      · rw [herase]
        exact getElem?_behind pre rest w
    · rw [if_neg (fun hge => hinside (hend.mp hge)), if_neg hinside]
      have hmerge : scb.mergePartial pre.length =
          if seqGeq (sackBlock w).sblkEnd (sackBlock r).sblkStart then
            (scb.setEnd pre.length (sackBlock r).sblkEnd).removeBlock (pre.length + 1)
          else scb := by
        unfold mergePartial
        rw [hworking, hbehind]
        rfl
      rw [hmerge]
      by_cases hmeets : r.1 ≤ w.2
      · rw [if_pos (hstart.mpr hmeets), if_pos hmeets]
        constructor
        · simp only [removeBlock, setEnd, hblocks, sackBlock]
          rw [modify_working]
          exact eraseIdx_behind pre rest (w.1, r.2) r
        · apply (hcounted.setEnd _ _).removeBlock
          simpa [setEnd] using hplace
      · rw [if_neg (fun hge => hmeets (hstart.mp hge)), if_neg hmeets]
        exact ⟨hblocks, hcounted⟩

theorem Holds.counted (h : scb.Holds low high ranges) : scb.Counted := by
  constructor
  · rw [h.blocks, length_map]
    exact h.count
  · rw [h.blocks, length_map]
    exact h.hint

theorem Holds.of_counted (hcounted : scb.Counted) (hblocks : scb.sackblocks = ranges.map sackBlock)
    (hapart : Apart low high ranges) (hlimit : ranges.length ≤ maxSavedBlocks) :
    scb.Holds low high ranges := by
  refine ⟨hblocks, hapart, ?_, hlimit, ?_⟩
  · rw [hcounted.count, hblocks, length_map]
  · intro j hj
    have hlt := hcounted.hint j hj
    rwa [hblocks, length_map] at hlt

/-! ## Inserting -/

theorem insertIdx_blocks (pre post : List (ℕ × ℕ)) (w : ℕ × ℕ) :
    ((pre ++ post).map sackBlock).insertIdx pre.length (sackBlock w) =
      (pre ++ w :: post).map sackBlock := by
  induction pre with
  | nil => rfl
  | cons q pre ih =>
    rw [cons_append, map_cons, length_cons, insertIdx_succ_cons, ih]
    rfl

/-- What an insertion of the range from `a` to `b` may leave. -/
def Extends (ranges : List (ℕ × ℕ)) (a b : ℕ) (ranges' : List (ℕ × ℕ)) : Prop :=
  ∀ x, Covers ranges' x → Covers ranges x ∨ (a ≤ x ∧ x < b)

theorem Extends.refl (ranges : List (ℕ × ℕ)) (a b : ℕ) : Extends ranges a b ranges :=
  fun _ hx => Or.inl hx

theorem consolidateRight_holds (hblocks : scb.sackblocks = (pre ++ w :: post).map sackBlock)
    (hcounted : scb.Counted) (hwindow : high ≤ low + maxWindow)
    (hw : low < w.1 ∧ w.1 < w.2 ∧ w.2 ≤ high)
    (hpre : Apart low high pre) (hends : ∀ r ∈ pre, r.2 < w.1) (hpost : Apart w.1 high post)
    (hlimit : (pre ++ w :: post).length ≤ maxSavedBlocks) :
    (scb.consolidateRight pre.length).Holds low high (pre ++ absorb w post) := by
  obtain ⟨hblocks', hcounted'⟩ := consolidateRight_blocks hblocks hcounted
    (by omega : low ≤ w.2) hw.2.2 (hpost.mono hw.1.le le_rfl) hwindow
  have habsorbed := absorb_apart hw hpost
  apply Holds.of_counted hcounted' hblocks'
  · rw [append_iff]
    refine ⟨hpre, habsorbed, ?_⟩
    intro r hr r' hr'
    obtain ⟨stop, rest, hcons, -⟩ := exists_mem_absorb (w := w) hpost
    have hend := hends r hr
    rw [hcons] at hr' habsorbed
    rcases mem_cons.mp hr' with rfl | hmem
    · exact hend
    · have hfirst := (cons_iff.mp habsorbed).2.bounds r' hmem
      have hproper := (cons_iff.mp habsorbed).1.2.1
      simp only at hproper hfirst
      omega
  · have hle := length_absorb_le w post
    rw [length_append, length_cons] at hlimit
    rw [length_append]
    omega

theorem extends_absorb
    (hpre : ∀ x, Covers pre x → Covers ranges x) (hpost : ∀ x, Covers post x → Covers ranges x)
    (hw : ∀ x, w.1 ≤ x → x < w.2 → Covers ranges x ∨ (a ≤ x ∧ x < b)) :
    Extends ranges a b (pre ++ absorb w post) := by
  intro x hx
  rcases covers_append.mp hx with hx | hx
  · exact Or.inl (hpre x hx)
  · rcases covers_of_absorb hx with hx | hx
    · exact hw x hx.1 hx.2
    · exact Or.inl (hpost x hx)

theorem allocSackblock_eq (h : scb.allocSackblock kmalloc raw = some (scb', block)) :
    scb' = { scb with freecache := scb'.freecache } ∧ block = ⟨raw.rblkStart, raw.rblkEnd⟩ := by
  unfold allocSackblock at h
  split_ifs at h with hcache hmalloc
  · cases h
    exact ⟨rfl, rfl⟩
  · cases h
    exact ⟨rfl, rfl⟩

theorem Counted.freecache (h : scb.Counted) (cached : Bool) :
    Counted { scb with freecache := cached } :=
  ⟨h.count, h.hint⟩

theorem insertNew_holds
    (pre : List (ℕ × ℕ)) (h : scb.Holds low high (pre ++ post)) (hwindow : high ≤ low + maxWindow)
    (ha : low < a) (hab : a < b) (hb : b ≤ high)
    (hpre : ∀ r ∈ pre, r.2 < a) (hpost : ∀ r ∈ post, a < r.1) (kmalloc : Bool) :
    ∃ ranges', (scb.insertNew kmalloc ⟨serial 32 a, serial 32 b⟩
        pre.length).scb.Holds low high ranges' ∧ Extends (pre ++ post) a b ranges' := by
  obtain ⟨hleft, hright, hcross⟩ := append_iff.mp h.apart
  unfold insertNew allocSackblockLimit
  by_cases hfull : scb.nblocks = maxSavedBlocks
  · rw [if_pos hfull]
    exact ⟨pre ++ post, h, Extends.refl _ a b⟩
  · rw [if_neg hfull]
    cases halloc : scb.allocSackblock kmalloc ⟨serial 32 a, serial 32 b⟩ with
    | none => exact ⟨pre ++ post, h, Extends.refl _ a b⟩
    | some allocated =>
      obtain ⟨scb', block⟩ := allocated
      obtain ⟨hscb, hblock⟩ := allocSackblock_eq halloc
      have hlimit : (pre ++ (a, b) :: post).length ≤ maxSavedBlocks := by
        have hcount := h.count
        have hle := h.limit
        rw [hcount] at hfull
        simp only [length_append, length_cons] at hfull hle ⊢
        omega
      have hcounted : (scb'.insertAt pre.length block).Counted := by
        apply Counted.insertAt
        · rw [hscb]
          exact h.counted.freecache _
        · rw [hscb]
          simp [h.blocks]
      have hblocks : (scb'.insertAt pre.length block).sackblocks =
          (pre ++ (a, b) :: post).map sackBlock := by
        rw [hscb, hblock, ← insertIdx_blocks, ← h.blocks]
        rfl
      refine ⟨pre ++ absorb (a, b) post, ?_, ?_⟩
      · apply consolidateRight_holds hblocks hcounted hwindow ⟨ha, hab, hb⟩ hleft hpre _ hlimit
        exact ⟨hright.pairwise, fun r hr => ⟨hpost r hr, (hright.bounds r hr).2⟩⟩
      · apply extends_absorb
        · intro x hx
          exact covers_append.mpr (Or.inl hx)
        · intro x hx
          exact covers_append.mpr (Or.inr hx)
        · intro x hlow hhigh
          exact Or.inr ⟨hlow, hhigh⟩

theorem extend_holds (h : scb.Holds low high (pre ++ r :: post)) (hwindow : high ≤ low + maxWindow)
    (hstop : a ≤ r.2) (hlonger : r.2 < b) (hb : b ≤ high) :
    ∃ ranges', ((scb.setEnd pre.length (serial 32 b)).consolidateRight
        pre.length).Holds low high ranges' ∧ Extends (pre ++ r :: post) a b ranges' := by
  obtain ⟨hleft, hright, hcross⟩ := append_iff.mp h.apart
  obtain ⟨hr, hpost⟩ := cons_iff.mp hright
  have hblocks : (scb.setEnd pre.length (serial 32 b)).sackblocks =
      (pre ++ (r.1, b) :: post).map sackBlock := by
    rw [← modify_working, ← h.blocks]
    rfl
  refine ⟨pre ++ absorb (r.1, b) post, ?_, ?_⟩
  · apply consolidateRight_holds hblocks (h.counted.setEnd _ _) hwindow
    · exact ⟨hr.1, hr.2.1.trans hlonger, hb⟩
    · exact hleft
    · intro q hq
      exact hcross q hq r mem_cons_self
    · exact hpost.mono hr.2.1.le le_rfl
    · simpa using h.limit
  · apply extends_absorb
    · intro x hx
      exact covers_append.mpr (Or.inl hx)
    · intro x hx
      exact covers_append.mpr (Or.inr (covers_cons.mpr (Or.inr hx)))
    · intro x hlow hhigh
      simp only at hlow hhigh
      by_cases hold : x < r.2
      · left
        exact covers_append.mpr (Or.inr (covers_cons.mpr (Or.inl ⟨hlow, hold⟩)))
      · right
        omega

theorem insertBlock_empty
    (h : scb.Holds low high []) (ha : low < a) (hab : a < b) (hb : b ≤ high) (kmalloc : Bool) :
    ∃ inserted ranges', scb.insertBlock kmalloc ⟨serial 32 a, serial 32 b⟩ = some inserted ∧
      inserted.scb.Holds low high ranges' ∧ Extends [] a b ranges' := by
  have hempty : scb.sackblocks = [] := h.blocks
  unfold insertBlock
  rw [if_pos hempty]
  cases halloc : scb.allocSackblock kmalloc ⟨serial 32 a, serial 32 b⟩ with
  | none => exact ⟨_, [], rfl, h, Extends.refl _ a b⟩
  | some allocated =>
    obtain ⟨scb', block⟩ := allocated
    obtain ⟨hscb, hblock⟩ := allocSackblock_eq halloc
    have hcounted : (scb'.insertAt 0 block).Counted := by
      apply Counted.insertAt
      · rw [hscb]
        exact h.counted.freecache _
      · exact Nat.zero_le _
    have hblocks : (scb'.insertAt 0 block).sackblocks = [(a, b)].map sackBlock := by
      rw [hscb, hblock]
      simp only [insertAt, hempty]
      rfl
    have hone : (scb'.insertAt 0 block).nblocks = 1 := by
      rw [hcounted.count, hblocks]
      rfl
    refine ⟨_, [(a, b)], rfl, ?_, ?_⟩
    · simp only [← hone]
      apply Holds.of_counted hcounted hblocks
      · exact cons_iff.mpr ⟨⟨ha, hab, hb⟩, nil⟩
      · exact Nat.succ_le_of_lt (by decide : 0 < maxSavedBlocks)
    · intro x hx
      exact Or.inr ((covers_cons.mp hx).resolve_right (by simp [Covers]))

/-- Inserting a block of the window: the scoreboard covers no position that it did
not cover and the block does not name. -/
theorem insertBlock_holds (h : scb.Holds low high ranges) (hwindow : high ≤ low + maxWindow)
    (ha : low < a) (hab : a < b) (hb : b ≤ high) (kmalloc : Bool) :
    ∃ inserted ranges', scb.insertBlock kmalloc ⟨serial 32 a, serial 32 b⟩ = some inserted ∧
      inserted.scb.Holds low high ranges' ∧ Extends ranges a b ranges' := by
  by_cases hne : ranges = []
  · subst hne
    exact insertBlock_empty h ha hab hb kmalloc
  have hlookup := sackBlockLookup_eq h hwindow ha.le (hab.le.trans hb)
  have hlocated : Located a ranges (locate a 0 ranges) := locate_located [] h.apart (by simp)
  generalize locate a 0 ranges = found at hlookup hlocated
  have hmoved : { scb with lastfound := found.1 }.Holds low high ranges :=
    ⟨h.blocks, h.apart, h.count, h.limit, fun _ hj => hlocated.lt_length hj⟩
  unfold insertBlock
  rw [if_neg (by rw [h.blocks]; simp [hne]), hlookup]
  cases hlocated with
  | @inside r pre post hranges hstart hstop =>
    subst hranges
    have hr := h.apart.bounds r (by simp)
    have hlonger : seqGt (serial 32 b) (sackBlock r).sblkEnd = true ↔ r.2 < b :=
      seqGt_serial (by omega : low ≤ b) (by omega) (by omega) (by omega)
    have hget : scb.sackblocks[pre.length]? = some (sackBlock r) := by
      rw [h.blocks]
      exact getElem?_working pre post r
    simp only [hget, Bool.true_or, if_true]
    by_cases hextend : r.2 < b
    · rw [if_pos (hlonger.mpr hextend)]
      obtain ⟨ranges', hholds, hextends⟩ := extend_holds hmoved hwindow hstop.le hextend hb
      exact ⟨_, ranges', rfl, hholds, hextends⟩
    · rw [if_neg (fun hgt => hextend (hlonger.mp hgt))]
      exact ⟨_, _, rfl, hmoved, Extends.refl _ a b⟩
  | front hafter =>
    obtain ⟨ranges', hholds, hextends⟩ :=
      insertNew_holds [] hmoved hwindow ha hab hb (by simp) hafter kmalloc
    exact ⟨_, ranges', rfl, hholds, hextends⟩
  | @behind r pre post hranges hstop hafter =>
    subst hranges
    have hr := h.apart.bounds r (by simp)
    have hcross := (append_iff.mp h.apart).2.2
    have hget : scb.sackblocks[pre.length]? = some (sackBlock r) := by
      rw [h.blocks]
      exact getElem?_working pre post r
    have hmeets : (sackBlock r).sblkEnd = serial 32 a ↔ r.2 = a := by
      unfold maxWindow at hwindow
      exact Serial.eq_iff (w := 31) (by omega) (by omega)
    simp only [hget, Bool.false_or, beq_iff_eq, hmeets]
    by_cases hadjacent : r.2 = a
    · have hlonger : seqGt (serial 32 b) (sackBlock r).sblkEnd = true :=
        (seqGt_serial (by omega : low ≤ b) (by omega) (by omega) (by omega)).mpr
          (by omega : r.2 < b)
      rw [if_pos hadjacent, if_pos hlonger]
      obtain ⟨ranges', hholds, hextends⟩ := extend_holds hmoved hwindow hadjacent.ge (by omega) hb
      exact ⟨_, ranges', rfl, hholds, hextends⟩
    · rw [if_neg hadjacent]
      rw [append_cons] at hmoved
      have hpre : ∀ q ∈ pre ++ [r], q.2 < a := by
        intro q hq
        rcases mem_append.mp hq with hmem | hmem
        · have hlt := hcross q hmem r mem_cons_self
          omega
        · rw [mem_singleton.mp hmem]
          omega
      obtain ⟨ranges', hholds, hextends⟩ :=
        insertNew_holds (pre ++ [r]) hmoved hwindow ha hab hb hpre hafter kmalloc
      rw [length_append, length_singleton] at hholds
      rw [← append_cons] at hextends
      exact ⟨_, ranges', rfl, hholds, hextends⟩

end Scoreboard

end DragonFly.Netinet
