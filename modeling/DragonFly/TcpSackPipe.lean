import DragonFly.TcpSackLoss

/-!
# The pipe

The sum that `tcp_sack_compute_pipe` returns is compared with the number of the
sequence numbers it stands for.
-/

namespace DragonFly.Netinet

open RangeList List

def seqMin (a b : TcpSeq) : TcpSeq :=
  if seqLt a b then a else b

/-- What one block takes off `nlost` and `nretransmitted`. -/
def pipeBlock (lostseq rexmtHigh : TcpSeq) (sums : BitVec 32 × BitVec 32) (sb : SackBlock) :
    BitVec 32 × BitVec 32 :=
  (if seqGeq sb.sblkStart lostseq then sums.1 - (sb.sblkEnd - sb.sblkStart) else sums.1,
    if seqLt sb.sblkStart rexmtHigh then
      sums.2 - (seqMin sb.sblkEnd rexmtHigh - sb.sblkStart)
    else sums.2)

def tcpSackComputePipe (tp : SackTcpcb) : BitVec 32 :=
  let sums := tp.scb.sackblocks.foldl (pipeBlock tp.scb.lostseq tp.rexmtHigh)
    (tp.sndMax - tp.scb.lostseq, tp.rexmtHigh - tp.sndUna)
  sums.1 + sums.2

def Scoreboard.Sacked (scb : Scoreboard) (seq : TcpSeq) : Prop :=
  ∃ b ∈ scb.sackblocks, b.Names seq

open Classical in
/-- The sequence numbers with a property at the positions from `a` up to `b`. -/
noncomputable def countSeq (P : TcpSeq → Prop) (a b : ℕ) : ℕ :=
  ((Finset.Ico a b).filter fun x => P (serial 32 x)).card

/-- The bytes of the ranges between two positions. -/
def bytesBetween (a b : ℕ) (ranges : List (ℕ × ℕ)) : ℕ :=
  (ranges.map fun r => min r.2 b - max r.1 a).sum

variable {una high low lost rexmt a b : ℕ} {ranges : List (ℕ × ℕ)}

open Classical in
theorem card_not_covered (h : Apart low high ranges) :
    ((Finset.Ico a b).filter fun x => ¬Covers ranges x).card + bytesBetween a b ranges = b - a := by
  induction ranges generalizing low with
  | nil => simp [Covers, bytesBetween]
  | cons r rest ih =>
    have hrest := (Apart.cons_iff.mp h).2
    have hsplit := Finset.card_filter_add_card_filter_not
      (s := (Finset.Ico a b).filter fun x => ¬Covers rest x) fun x => r.1 ≤ x ∧ x < r.2
    have hinside : ((Finset.Ico a b).filter fun x => ¬Covers rest x).filter
        (fun x => r.1 ≤ x ∧ x < r.2) = Finset.Ico (max r.1 a) (min r.2 b) := by
      ext x
      simp only [Finset.mem_filter, Finset.mem_Ico, sup_le_iff, lt_inf_iff]
      constructor
      · tauto
      · rintro ⟨⟨hstart, ha⟩, hstop, hb⟩
        refine ⟨⟨⟨ha, hb⟩, ?_⟩, hstart, hstop⟩
        rintro ⟨q, hq, hqx, -⟩
        have hafter := (hrest.bounds q hq).1
        omega
    have houtside : ((Finset.Ico a b).filter fun x => ¬Covers rest x).filter
        (fun x => ¬(r.1 ≤ x ∧ x < r.2)) =
          (Finset.Ico a b).filter fun x => ¬Covers (r :: rest) x := by
      ext x
      simp only [Finset.mem_filter, covers_cons]
      tauto
    rw [hinside, houtside, Nat.card_Ico] at hsplit
    have hcount := ih hrest
    simp only [bytesBetween, map_cons, sum_cons] at hcount ⊢
    omega

/-- A watermark at an edge splits no block, so that the loop takes off exactly the
bytes above it and those below `rexmt_high`. -/
theorem foldl_pipeBlock (h : Apart una high ranges) (hwindow : high ≤ una + maxWindow)
    (hlost : una ≤ lost) (hlost' : lost ≤ high) (hedge : ∀ r ∈ ranges, r.1 < lost → r.2 ≤ lost)
    (hrexmt : una ≤ rexmt) (hrexmt' : rexmt ≤ high) (sums : BitVec 32 × BitVec 32) :
    (ranges.map sackBlock).foldl (pipeBlock (serial 32 lost) (serial 32 rexmt)) sums =
      (sums.1 - BitVec.ofNat 32 (bytesBetween lost high ranges),
        sums.2 - BitVec.ofNat 32 (bytesBetween una rexmt ranges)) := by
  unfold maxWindow at hwindow
  have hdiff : ∀ (s : BitVec 32) (m n : ℕ),
      s - BitVec.ofNat 32 m - BitVec.ofNat 32 n = s - BitVec.ofNat 32 (m + n) := by
    intro s m n
    grind [BitVec.ofNat_add]
  induction ranges generalizing sums with
  | nil => simp [bytesBetween]
  | cons r rest ih =>
    rw [forall_mem_cons] at hedge
    have hr := h.bounds r mem_cons_self
    have hgeq : seqGeq (sackBlock r).sblkStart (serial 32 lost) = true ↔ lost ≤ r.1 :=
      seqGeq_near (by omega) (by omega)
    have hlt : seqLt (sackBlock r).sblkStart (serial 32 rexmt) = true ↔ r.1 < rexmt :=
      seqLt_near (by omega) (by omega)
    have hmin : seqMin (sackBlock r).sblkEnd (serial 32 rexmt) = serial 32 (min r.2 rexmt) := by
      have hend : seqLt (sackBlock r).sblkEnd (serial 32 rexmt) = true ↔ r.2 < rexmt :=
        seqLt_near (by omega) (by omega)
      simp only [seqMin, hend, Nat.min_def]
      split_ifs <;> first | rfl | (congr 1; omega)
    have hfirst : (pipeBlock (serial 32 lost) (serial 32 rexmt) sums (sackBlock r)).1 =
        sums.1 - BitVec.ofNat 32 (min r.2 high - max r.1 lost) := by
      simp only [pipeBlock, hgeq]
      split_ifs with habove
      · rw [min_eq_left hr.2.2, max_eq_left habove]
        exact congrArg _ (Serial.sub_of_le hr.2.1.le)
      · rw [Nat.sub_eq_zero_of_le (by omega)]
        exact (BitVec.sub_zero _).symm
    have hsecond : (pipeBlock (serial 32 lost) (serial 32 rexmt) sums (sackBlock r)).2 =
        sums.2 - BitVec.ofNat 32 (min r.2 rexmt - max r.1 una) := by
      simp only [pipeBlock, hlt, hmin]
      split_ifs with hbelow
      · rw [max_eq_left hr.1.le]
        exact congrArg _ (Serial.sub_of_le (by omega))
      · rw [Nat.sub_eq_zero_of_le (by omega)]
        exact (BitVec.sub_zero _).symm
    rw [map_cons, foldl_cons, ih ((Apart.cons_iff.mp h).2.mono (by omega) le_rfl) hedge.2, hfirst,
      hsecond, hdiff, hdiff]
    rfl

theorem lostseqLoop_edge (seq : TcpSeq) (blocks : List SackBlock) (n bytes : BitVec 32) :
    Scoreboard.lostseqLoop thresh limit seq blocks n bytes = seq ∨
      ∃ b ∈ blocks, Scoreboard.lostseqLoop thresh limit seq blocks n bytes = b.sblkStart := by
  induction blocks generalizing n bytes with
  | nil => exact Or.inl rfl
  | cons b rest ih =>
    rw [Scoreboard.lostseqLoop]
    split_ifs
    · exact Or.inr ⟨b, mem_cons_self, rfl⟩
    · refine (ih _ _).imp_right ?_
      rintro ⟨b', hb', heq⟩
      exact ⟨b', mem_cons_of_mem b hb', heq⟩

namespace SackConn

open SackTcpcb

variable {c : SackConn}

theorem Tracks.sacked_iff (h : c.Tracks ranges) (hsynced : c.synced = c.una)
    (hlow : c.una ≤ x) (hhigh : x ≤ c.max) : c.tp.scb.Sacked (serial 32 x) ↔ Covers ranges x := by
  have hlt := h.window
  have hholds := h.holds
  rw [hsynced] at hholds
  unfold Scoreboard.Sacked
  rw [hholds.blocks]
  simp only [mem_map, exists_exists_and_eq_and]
  constructor
  · rintro ⟨r, hr, hnames⟩
    have hbounds := hholds.apart.bounds r hr
    obtain ⟨y, hstart, hstop, heq⟩ := hnames.position hbounds.2.1 (by omega)
    rw [(Serial.eq_iff (w := 31) (by omega) (by omega)).mp heq]
    exact ⟨r, hr, hstart, hstop⟩
  · rintro ⟨r, hr, hstart, hstop⟩
    have hbounds := hholds.apart.bounds r hr
    exact ⟨r, hr, rawNames_serial hstart hstop (by omega)⟩

theorem lostseq_of_ack {c' : SackConn} (h : c'.Tracks ranges) (hsynced : c'.synced = c'.una)
    (hnext : c.next (.ack una env option) = some c') :
    ∃ lost, c'.tp.scb.lostseq = serial 32 lost ∧ c'.una ≤ lost ∧ lost ≤ c'.max ∧
      ∀ r ∈ ranges, r.1 < lost → r.2 ≤ lost := by
  have hloop : c'.tp.scb.lostseq = c'.tp.sndUna ∨
      ∃ b ∈ c'.tp.scb.sackblocks, c'.tp.scb.lostseq = b.sblkStart := by
    simp only [next, Option.map_eq_some_iff, tcpSackUpdateScoreboard] at hnext
    obtain ⟨updated, hupdated, rfl⟩ := hnext
    split at hupdated
    · cases hupdated
    · cases hupdated
      rename_i tp _ _
      rw [(updateRexmt_frame _ env).1, (updateRexmt_frame _ env).2.1]
      simpa only [Scoreboard.tcpSackUpdateLostseq, mem_reverse] using
        lostseqLoop_edge tp.sndUna tp.scb.sackblocks.reverse 0 0
  have hholds := h.holds
  rw [hsynced] at hholds
  rcases hloop with hstart | ⟨b, hb, hstart⟩
  · refine ⟨c'.una, hstart.trans h.sndUna, le_rfl, h.ordered, fun r hr hlt => ?_⟩
    have hbounds := hholds.apart.bounds r hr
    omega
  · rw [hholds.blocks, mem_map] at hb
    obtain ⟨s, hs, rfl⟩ := hb
    have hbounds := hholds.apart.bounds s hs
    refine ⟨s.1, hstart, by omega, by omega, fun r hr hlt => ?_⟩
    obtain ⟨pre, post, hsplit⟩ := append_of_mem hs
    have happart := hholds.apart
    rw [hsplit] at hr happart
    obtain ⟨-, hpost, hcross⟩ := Apart.append_iff.mp happart
    rcases mem_append.mp hr with hpre | hrest
    · exact (hcross r hpre s mem_cons_self).le
    · rcases mem_cons.mp hrest with rfl | hlater
      · omega
      · have hafter := (Apart.cons_iff.mp hpost).2.bounds r hlater
        omega

/-- For every `rexmt_high` the pipe is what has not been SACKed and is not lost,
and what has not been SACKed below `rexmt_high`. -/
def PipeExact (c : SackConn) : Prop :=
  ∀ rexmt, c.una ≤ rexmt → rexmt ≤ c.max →
    (tcpSackComputePipe { c.tp with rexmtHigh := serial 32 rexmt }).toNat =
      countSeq (fun seq => ¬c.tp.scb.Sacked seq ∧ ¬c.tp.scb.tcpSackIslost seq) c.una c.max +
        countSeq (fun seq => ¬c.tp.scb.Sacked seq) c.una rexmt

theorem update_pipeExact (h : Reachable Fresh Disciplined next c)
    (hack : c.Disciplined (.ack una env option)) :
    ∃ c', c.next (.ack una env option) = some c' ∧ c'.PipeExact := by
  classical
  obtain ⟨ranges, htracks⟩ := tracks_of_reachable h
  obtain ⟨c', ranges', hnext, htracks', hsynced⟩ := htracks.ack hack.1 hack.2
  refine ⟨c', hnext, fun rexmt hrexmt hrexmt' => ?_⟩
  have hlt := htracks'.window
  have hholds := htracks'.holds
  rw [hsynced] at hholds
  obtain ⟨lost, hlost, hlow, hhigh, hedge⟩ := lostseq_of_ack htracks' hsynced hnext
  have hislost : ∀ x, c'.una ≤ x → x < c'.max →
      (c'.tp.scb.tcpSackIslost (serial 32 x) = true ↔ x < lost) := by
    intro x hx hx'
    rw [Scoreboard.tcpSackIslost, hlost]
    exact seqLt_near (by omega) (by omega)
  have hfirst : countSeq (fun seq => ¬c'.tp.scb.Sacked seq ∧ ¬c'.tp.scb.tcpSackIslost seq)
      c'.una c'.max + bytesBetween lost c'.max ranges' = c'.max - lost := by
    rw [← card_not_covered hholds.apart, countSeq]
    congr 2
    ext x
    simp only [Finset.mem_filter, Finset.mem_Ico]
    constructor
    · rintro ⟨⟨hx, hx'⟩, hfree, habove⟩
      rw [htracks'.sacked_iff hsynced hx hx'.le] at hfree
      rw [hislost x hx hx'] at habove
      exact ⟨⟨not_lt.mp habove, hx'⟩, hfree⟩
    · rintro ⟨⟨hx, hx'⟩, hfree⟩
      have hx'' := hlow.trans hx
      rw [htracks'.sacked_iff hsynced hx'' hx'.le, hislost x hx'' hx']
      exact ⟨⟨hx'', hx'⟩, hfree, not_lt.mpr hx⟩
  have hsecond : countSeq (fun seq => ¬c'.tp.scb.Sacked seq) c'.una rexmt +
      bytesBetween c'.una rexmt ranges' = rexmt - c'.una := by
    rw [← card_not_covered hholds.apart, countSeq]
    congr 2
    ext x
    simp only [Finset.mem_filter, Finset.mem_Ico, and_congr_right_iff]
    rintro ⟨hx, hx'⟩
    rw [htracks'.sacked_iff hsynced hx (by omega)]
  unfold tcpSackComputePipe
  simp only [hholds.blocks, hlost, htracks'.sndMax, htracks'.sndUna]
  rw [foldl_pipeBlock hholds.apart (by unfold maxWindow; omega) hlow hhigh hedge hrexmt hrexmt',
    Serial.sub_of_le hhigh, Serial.sub_of_le hrexmt, ← hfirst, ← hsecond, BitVec.ofNat_add,
    BitVec.ofNat_add, BitVec.add_sub_cancel, BitVec.add_sub_cancel, ← BitVec.ofNat_add,
    BitVec.toNat_ofNat]
  exact Nat.mod_eq_of_lt (by omega)

theorem update_pipeExact_wrap :
    ∃ c', (opened (2 ^ 32 - 500) (2 ^ 32 + 500)).next
      (.ack (2 ^ 32 - 500) quietEnv [⟨20, 50⟩]) = some c' ∧ c'.PipeExact :=
  update_pipeExact (.start (opened_fresh (by decide) (by decide))) opened_ack_disciplined

/-- The block that goes round the window is taken off the pipe, which falls below
zero. -/
theorem wrapped_block_pipe :
    ∃ c c', Reachable Fresh InWindow next c ∧
      c.InWindow (.ack 0 quietEnv [⟨2 ^ 31 - 1, 2 ^ 31 + 1000⟩]) ∧
      c.next (.ack 0 quietEnv [⟨2 ^ 31 - 1, 2 ^ 31 + 1000⟩]) = some c' ∧ ¬c'.PipeExact := by
  have hnext : ((opened 0 1000).next (.ack 0 quietEnv [⟨2 ^ 31 - 1, 2 ^ 31 + 1000⟩])).map
        (fun c => (c.una, c.max, tcpSackComputePipe { c.tp with rexmtHigh := serial 32 0 })) =
      some (0, 1000, 2 ^ 32 - 1) := by
    simp only [next, tcpSackUpdateScoreboard, tcpSackAckBlocks, opened, removeAcked_empty]
    decide
  rw [Option.map_eq_some_iff] at hnext
  obtain ⟨c', hc', heq⟩ := hnext
  simp only [Prod.mk.injEq] at heq
  obtain ⟨huna, hmax, hpipe⟩ := heq
  refine ⟨opened 0 1000, c', .start (opened_fresh (by decide) (by decide)),
    ⟨by decide, by decide⟩, hc', fun h => ?_⟩
  have hcount := h 0 (by omega) (by omega)
  have hbound : ∀ P a b, countSeq P a b ≤ b - a := by
    classical
    intro P a b
    exact (Finset.card_filter_le _ _).trans (Nat.card_Ico a b).le
  have hfirst := hbound (fun seq => ¬c'.tp.scb.Sacked seq ∧ ¬c'.tp.scb.tcpSackIslost seq)
    c'.una c'.max
  have hsecond := hbound (fun seq => ¬c'.tp.scb.Sacked seq) c'.una 0
  rw [hpipe, show (2 ^ 32 - 1 : BitVec 32).toNat = 2 ^ 32 - 1 by decide] at hcount
  omega

end SackConn

end DragonFly.Netinet
