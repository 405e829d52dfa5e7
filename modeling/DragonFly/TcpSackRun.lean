import DragonFly.EventSystem
import DragonFly.TcpSackScoreboard

/-!
# Updating the scoreboard

A sender is followed through the events that move its window or its scoreboard.
Its `snd_una` and `snd_max` name stream positions, and the peer chooses the SACK
options freely.
-/

namespace DragonFly.Netinet

open RangeList List Serial Scoreboard Apart

/-- A sequence number between the two edges of a block, going round. -/
def SackBlock.Names (b : SackBlock) (seq : TcpSeq) : Prop :=
  (seq - b.sblkStart).toNat < (b.sblkEnd - b.sblkStart).toNat

def RawSackBlock.Names (raw : RawSackBlock) (seq : TcpSeq) : Prop :=
  (seq - raw.rblkStart).toNat < (raw.rblkEnd - raw.rblkStart).toNat

/-- A sender: the positions of `snd_una` and `snd_max`, the `snd_una` of its last
update, the blocks `tcp_dooptions` has let through, and its connection. -/
structure SackConn where
  una : ℕ
  max : ℕ
  synced : ℕ
  received : List RawSackBlock
  tp : SackTcpcb
  deriving DecidableEq

inductive SackEvent where
  /-- `tcp_output` sends up to `max`. -/
  | send (max : ℕ)
  /-- The output path looks a position up. -/
  | search (p : ℕ)
  /-- The retransmission timer fires. -/
  | timeout
  /-- Header prediction takes an ACK and leaves the scoreboard alone. -/
  | predicted (una : ℕ)
  /-- Any other ACK. -/
  | ack (una : ℕ) (env : SackEnv) (option : List RawSackBlock)

namespace SackConn

def next (c : SackConn) : SackEvent → Option SackConn
  | .send max => some { c with max, tp := { c.tp with sndMax := serial 32 max } }
  | .search p =>
    (c.tp.scb.sackBlockLookup (serial 32 p)).map fun found =>
      { c with tp := { c.tp with scb := found.1 } }
  | .timeout => some { c with tp := c.tp.tcpSackDiscard }
  | .predicted una =>
    some { c with una, tp := { c.tp with sndUna := serial 32 una } }
  | .ack una env option =>
    let blocks := tcpDooptionsSack option
    let tp := { c.tp with sndUna := serial 32 una }
    (tp.tcpSackUpdateScoreboard env blocks).map fun updated =>
      { c with
        una, synced := una, received := c.received ++ blocks, tp := updated.1 }

/-- `snd_una` advances up to `snd_max`, which stays less than `2 ^ 30` ahead. -/
def InWindow (c : SackConn) : SackEvent → Prop
  | .send max => c.max ≤ max ∧ max < c.una + 2 ^ 30
  | .search p => c.una ≤ p ∧ p ≤ c.max
  | .timeout => True
  | .predicted una => c.una ≤ una ∧ una ≤ c.max
  | .ack una _ _ => c.una ≤ una ∧ una ≤ c.max

instance (c : SackConn) (event : SackEvent) : Decidable (c.InWindow event) := by
  cases event <;> unfold InWindow <;> infer_instance

/-- No block starts after `snd_max` and ends, going round, at or before it; and
header prediction has not carried `snd_una` half a turn past a block. -/
def Straight (c : SackConn) : SackEvent → Prop
  | .ack una _ option =>
    (∀ raw ∈ tcpDooptionsSack option,
      ¬(seqGt raw.rblkStart c.tp.sndMax ∧ seqLeq raw.rblkEnd c.tp.sndMax)) ∧
    (c.tp.scb.sackblocks = [] ∨ una ≤ c.synced + 2 ^ 31)
  | _ => True

/-- A connection whose scoreboard has just been set up. -/
structure Fresh (c : SackConn) : Prop where
  board : ∃ tp : SackTcpcb, c.tp = tp.tcpSackTcpcbInit
  sndUna : c.tp.sndUna = serial 32 c.una
  sndMax : c.tp.sndMax = serial 32 c.max
  ordered : c.una ≤ c.max
  window : c.max < c.una + 2 ^ 30
  synced : c.synced = c.una

structure WellFormed (c : SackConn) : Prop where
  /-- Sorted, not empty, apart from each other, and inside the window. -/
  ranges : ∃ ranges : List (ℕ × ℕ), c.tp.scb.sackblocks = ranges.map sackBlock ∧
    ranges.Pairwise (fun r r' => r.2 < r'.1) ∧
    ∀ r ∈ ranges, c.una < r.1 ∧ r.1 < r.2 ∧ r.2 ≤ c.max
  count : c.tp.scb.nblocks = c.tp.scb.sackblocks.length
  limit : c.tp.scb.sackblocks.length ≤ maxSavedBlocks
  named : ∀ b ∈ c.tp.scb.sackblocks, ∀ seq, b.Names seq → ∃ raw ∈ c.received, raw.Names seq
  /-- The block a lookup finds does not depend on the hint. -/
  lookup : ∀ p, c.una ≤ p → p < c.max → ∃ answer, ∀ hint : Option ℕ,
    (∀ j, hint = some j → j < c.tp.scb.sackblocks.length) →
    ({ c.tp.scb with lastfound := hint }.sackBlockLookup (serial 32 p)).map
      Prod.snd = some answer

end SackConn

/-! ## Blocks and positions -/

theorem rawNames_serial (hax : a ≤ x) (hxb : x < b) (hlen : b - a < 2 ^ 32) :
    RawSackBlock.Names ⟨serial 32 a, serial 32 b⟩ (serial 32 x) := by
  unfold RawSackBlock.Names
  rw [toNat_sub hax (by omega), toNat_sub (by omega) hlen]
  omega

theorem SackBlock.Names.position (h : (sackBlock r).Names seq) (hproper : r.1 < r.2)
    (hlen : r.2 - r.1 < 2 ^ 32) : ∃ x, r.1 ≤ x ∧ x < r.2 ∧ seq = serial 32 x := by
  simp only [SackBlock.Names, sackBlock] at h
  rw [toNat_sub hproper.le hlen] at h
  exact ⟨r.1 + (seq - serial 32 r.1).toNat, by omega, by omega,
    eq_serial_add seq r.1⟩

theorem exists_position_after (h : seqLeq seq (serial 32 n) = false) :
    ∃ m, seq = serial 32 m ∧ n < m ∧ m < n + 2 ^ 31 := by
  refine ⟨n + (seq - serial 32 n).toNat, eq_serial_add seq n, ?_⟩
  unfold seqLeq at h
  have hpos : 0 < (seq - serial 32 n).toInt := by simpa using h
  rw [BitVec.toInt_eq_toNat_cond] at hpos
  split_ifs at hpos with hsmall
  · omega
  · omega

variable {una max : ℕ} {raw : RawSackBlock}

/-- A block that passes the tests of `tcp_sack_add_blocks` and does not go round
the window is a range inside it. -/
theorem exists_range (hle : una ≤ max) (hwindow : max ≤ una + maxWindow)
    (hvalid : seqLeq raw.rblkEnd raw.rblkStart = false)
    (hafter : seqLeq raw.rblkStart (serial 32 una) = false)
    (hbefore : seqGt raw.rblkEnd (serial 32 max) = false)
    (hstraight : ¬(seqGt raw.rblkStart (serial 32 max) ∧ seqLeq raw.rblkEnd (serial 32 max))) :
    ∃ a b, raw = ⟨serial 32 a, serial 32 b⟩ ∧ una < a ∧ a < b ∧ b ≤ max := by
  obtain ⟨a, ha, hlow, hhigh⟩ := exists_position_after hafter
  rw [ha] at hvalid
  obtain ⟨b, hb, hab, hlen⟩ := exists_position_after hvalid
  unfold maxWindow at hwindow
  have hstart : (serial 32 a - serial 32 max).toInt = (a : ℤ) - max :=
    toInt_sub (w := 31) (by omega) (by omega)
  unfold seqGt at hbefore hstraight
  unfold seqLeq at hstraight
  rw [ha, hb, hstart] at hstraight
  rw [hb] at hbefore
  simp only [decide_eq_true_eq, decide_eq_false_iff_not, not_lt] at hbefore hstraight
  have hstop : (serial 32 b - serial 32 max).toInt = (b : ℤ) - max :=
    toInt_sub (w := 31) (by omega) (by omega)
  rw [hstop] at hbefore
  refine ⟨a, b, ?_, hlow, hab, by omega⟩
  rw [← ha, ← hb]

/-! ## Acknowledged blocks -/

namespace SackTcpcb

variable {ranges : List (ℕ × ℕ)} {low high una : ℕ} {scb : Scoreboard}

theorem removeAcked_holds (h : scb.Holds low high ranges) (hnear : una ≤ low + 2 ^ 31)
    (hwindow : high ≤ una + maxWindow) :
    ∃ ranges', (removeAcked (serial 32 una) scb).Holds low high ranges' ∧
      (∀ x, Covers ranges' x → Covers ranges x) ∧ ∀ r ∈ ranges', una < r.2 := by
  induction ranges generalizing scb with
  | nil =>
    refine ⟨[], ?_, fun _ hx => hx, by simp⟩
    rw [removeAcked]
    split
    · exact h
    · rename_i heq
      rw [h.blocks] at heq
      cases heq
  | cons r rest ih =>
    have hr := h.apart.bounds r mem_cons_self
    have hacked : seqLeq (sackBlock r).sblkEnd (serial 32 una) = true ↔ r.2 ≤ una := by
      unfold maxWindow at hwindow
      exact seqLeq_near (by omega) (by omega)
    have hstep : removeAcked (serial 32 una) scb =
        if seqLeq (sackBlock r).sblkEnd (serial 32 una) then
          removeAcked (serial 32 una) (scb.removeBlock 0)
        else scb := by
      rw [removeAcked]
      split
      · rename_i heq
        rw [h.blocks] at heq
        cases heq
      · rename_i sb _ heq
        rw [h.blocks, map_cons] at heq
        rw [(List.cons.inj heq).1]
    rw [hstep]
    by_cases hbelow : r.2 ≤ una
    · rw [if_pos (hacked.mpr hbelow)]
      have hrest : (scb.removeBlock 0).Holds low high rest := by
        apply Scoreboard.Holds.of_counted
        · exact h.counted.removeBlock (by simp [h.blocks])
        · simp only [removeBlock, h.blocks]
          rfl
        · exact (cons_iff.mp h.apart).2.mono (by omega) le_rfl
        · exact (Nat.le_succ _).trans h.limit
      obtain ⟨ranges', hholds, hcovers, hends⟩ := ih hrest
      exact ⟨ranges', hholds, fun x hx => covers_cons.mpr (Or.inr (hcovers x hx)), hends⟩
    · rw [if_neg (fun hle => hbelow (hacked.mp hle))]
      refine ⟨r :: rest, h, fun _ hx => hx, ?_⟩
      intro r' hr'
      rcases mem_cons.mp hr' with rfl | hmem
      · omega
      · have hlater := (cons_iff.mp h.apart).2.bounds r' hmem
        omega

theorem tcpSackCleanup_holds (h : scb.Holds low high ranges) (low' high' : ℕ) :
    scb.tcpSackCleanup.Holds low' high' [] := by
  refine ⟨rfl, nil, ?_, Nat.zero_le _, ?_⟩
  · simp only [tcpSackCleanup, h.count, h.blocks, length_map]
    simp
  · intro j hj
    cases hj

theorem tcpSackAckBlocks_holds
    {tp : SackTcpcb} (h : tp.scb.Holds low high ranges) (hnear : una ≤ low + 2 ^ 31)
    (hwindow : high ≤ una + maxWindow) :
    ∃ ranges', (tp.tcpSackAckBlocks (serial 32 una)).scb.Holds una high ranges' ∧
      ∀ x, Covers ranges' x → Covers ranges x := by
  obtain ⟨left, hleft, hcovers, hends⟩ := removeAcked_holds h hnear hwindow
  unfold tcpSackAckBlocks
  simp only [hleft.blocks]
  cases left with
  | nil =>
    exact ⟨[], ⟨hleft.blocks, nil, hleft.count, hleft.limit, hleft.hint⟩, hcovers⟩
  | cons r rest =>
    have hr := hleft.apart.bounds r mem_cons_self
    have hreneged : seqGeq (serial 32 una) (sackBlock r).sblkStart = true ↔ r.1 ≤ una := by
      unfold maxWindow at hwindow
      exact seqGeq_near (by omega) (by omega)
    simp only [map_cons]
    by_cases hinside : r.1 ≤ una
    · rw [if_pos (hreneged.mpr hinside)]
      refine ⟨[], ?_, by simp [Covers]⟩
      have hclean := tcpSackCleanup_holds hleft una high
      exact ⟨hclean.blocks, nil, hclean.count, hclean.limit, hclean.hint⟩
    · rw [if_neg (fun hge => hinside (hreneged.mp hge))]
      refine ⟨r :: rest, ?_, hcovers⟩
      apply Scoreboard.Holds.of_counted hleft.counted hleft.blocks _ hleft.limit
      exact cons_iff.mpr ⟨⟨not_le.mp hinside, hr.2⟩, (cons_iff.mp hleft.apart).2⟩

theorem tcpSackAckBlocks_window (tp : SackTcpcb) (thAck : TcpSeq) :
    (tp.tcpSackAckBlocks thAck).sndUna = tp.sndUna ∧
      (tp.tcpSackAckBlocks thAck).sndMax = tp.sndMax := by
  simp only [tcpSackAckBlocks]
  split
  · exact ⟨rfl, rfl⟩
  · split_ifs
    · exact ⟨rfl, rfl⟩
    · exact ⟨rfl, rfl⟩

/-! ## The blocks of an ACK -/

/-- Every position that is covered is named by a block that has arrived. -/
def NamedBy (received : List RawSackBlock) (ranges : List (ℕ × ℕ)) : Prop :=
  ∀ x, Covers ranges x → ∃ raw ∈ received, raw.Names (serial 32 x)

theorem addBlocksLoop_holds (env : SackEnv) (hle : una ≤ max) (hwindow : max ≤ una + maxWindow)
    (hreceived : ∀ raw ∈ blocks, raw ∈ received)
    (hvalid : ∀ raw ∈ blocks, seqLeq raw.rblkEnd raw.rblkStart = false)
    (hstraight : ∀ raw ∈ blocks, ¬(seqGt raw.rblkStart (serial 32 max) ∧
      seqLeq raw.rblkEnd (serial 32 max))) (h : scb.Holds una max ranges)
    (hnamed : NamedBy received ranges) (i : ℕ) (redundant : Bool) :
    ∃ added ranges', addBlocksLoop env (serial 32 una) (serial 32 max) blocks i scb redundant =
        some added ∧ added.1.Holds una max ranges' ∧ NamedBy received ranges' := by
  induction blocks generalizing scb ranges i redundant with
  | nil => exact ⟨_, ranges, rfl, h, hnamed⟩
  | cons raw rest ih =>
    rw [forall_mem_cons] at hreceived hvalid hstraight
    unfold addBlocksLoop
    by_cases hold : seqLeq raw.rblkStart (serial 32 una) = true
    · rw [if_pos hold]
      exact ih hreceived.2 hvalid.2 hstraight.2 h hnamed (i + 1) redundant
    rw [if_neg hold]
    by_cases hbad : seqGt raw.rblkEnd (serial 32 max) = true
    · rw [if_pos hbad]
      exact ⟨_, ranges, rfl, h, hnamed⟩
    rw [if_neg hbad]
    obtain ⟨a, b, hraw, ha, hab, hb⟩ := exists_range hle hwindow hvalid.1
      (Bool.eq_false_iff.mpr hold) (Bool.eq_false_iff.mpr hbad) hstraight.1
    obtain ⟨inserted, ranges', hinsert, hholds, hextends⟩ :=
      insertBlock_holds h hwindow ha hab hb (env.kmalloc i)
    have hnamed' : NamedBy received ranges' := by
      intro x hx
      rcases hextends x hx with hx | hx
      · exact hnamed x hx
      · refine ⟨raw, hreceived.1, ?_⟩
        unfold maxWindow at hwindow
        rw [hraw]
        exact rawNames_serial hx.1 hx.2 (by omega)
    rw [hraw, hinsert]
    simp only
    split_ifs
    · exact ⟨_, ranges', rfl, hholds, hnamed'⟩
    · exact ih hreceived.2 hvalid.2 hstraight.2 hholds hnamed' (i + 1) _

theorem tcpDooptionsSack_valid (hraw : raw ∈ tcpDooptionsSack option) :
    seqLeq raw.rblkEnd raw.rblkStart = false := by
  unfold tcpDooptionsSack at hraw
  split_ifs at hraw with hany
  · cases hraw
  · rw [any_eq_true] at hany
    push Not at hany
    exact Bool.eq_false_iff.mpr (hany raw hraw)

theorem updateRexmt_frame (tp : SackTcpcb) (env : SackEnv) :
    (tp.updateRexmt env).scb = tp.scb ∧ (tp.updateRexmt env).sndUna = tp.sndUna ∧
      (tp.updateRexmt env).sndMax = tp.sndMax := by
  simp only [updateRexmt]
  split_ifs <;> exact ⟨rfl, rfl, rfl⟩

theorem tcpSackUpdateScoreboard_holds (tp : SackTcpcb) (env : SackEnv) (option : List RawSackBlock)
    (h : tp.scb.Holds low max ranges) (hnear : una ≤ low + 2 ^ 31) (hle : una ≤ max)
    (hwindow : max ≤ una + maxWindow) (huna : tp.sndUna = serial 32 una)
    (hmax : tp.sndMax = serial 32 max) (hnamed : NamedBy received ranges)
    (hstraight : ∀ raw ∈ tcpDooptionsSack option,
      ¬(seqGt raw.rblkStart tp.sndMax ∧ seqLeq raw.rblkEnd tp.sndMax)) :
    ∃ updated ranges', tp.tcpSackUpdateScoreboard env (tcpDooptionsSack option) = some updated ∧
      updated.1.sndUna = tp.sndUna ∧ updated.1.sndMax = tp.sndMax ∧
      updated.1.scb.Holds una max ranges' ∧
      NamedBy (received ++ tcpDooptionsSack option) ranges' := by
  have hframe := tcpSackAckBlocks_window tp tp.sndUna
  obtain ⟨acked, hacked, hcovers⟩ := tcpSackAckBlocks_holds h hnear hwindow
  rw [← huna] at hacked
  have hnamed' : NamedBy (received ++ tcpDooptionsSack option) acked := by
    intro x hx
    obtain ⟨raw, hraw, hnames⟩ := hnamed x (hcovers x hx)
    exact ⟨raw, mem_append_left _ hraw, hnames⟩
  generalize hstart : (if 0 < tcpSackNdsackBlocks (tcpDooptionsSack option)
    (tp.tcpSackAckBlocks tp.sndUna).sndUna then 1 else 0) = startblock
  have hdrop : ∀ raw ∈ (tcpDooptionsSack option).drop startblock,
      raw ∈ tcpDooptionsSack option := fun _ hraw => mem_of_mem_drop hraw
  obtain ⟨added, ranges', hadded, hholds, hnamed''⟩ :=
    addBlocksLoop_holds env hle hwindow (fun raw hraw => mem_append_right received (hdrop raw hraw))
      (fun raw hraw => tcpDooptionsSack_valid (hdrop raw hraw))
      (fun raw hraw => hmax ▸ hstraight raw (hdrop raw hraw))
      hacked hnamed' startblock true
  have hadd : (tp.tcpSackAckBlocks tp.sndUna).tcpSackAddBlocks env (tcpDooptionsSack option) =
        some ({ tp.tcpSackAckBlocks tp.sndUna with scb := added.1 }, added.2) := by
    simp only [tcpSackAddBlocks, hstart]
    rw [hframe.1, hframe.2, huna, hmax]
    rw [huna] at hadded
    rw [hadded]
    rfl
  unfold tcpSackUpdateScoreboard
  rw [hadd]
  refine ⟨_, ranges', rfl, ?_, ?_, ?_, hnamed''⟩
  · rw [(updateRexmt_frame _ env).2.1]
    exact hframe.1
  · rw [(updateRexmt_frame _ env).2.2]
    exact hframe.2
  · rw [(updateRexmt_frame _ env).1]
    exact ⟨hholds.blocks, hholds.apart, hholds.count, hholds.limit, hholds.hint⟩

end SackTcpcb

/-! ## Runs -/

namespace Scoreboard

theorem lookupLoop_place {last prev : Option ℕ} (hlen : cur + blocks.length ≤ n)
    (hprev : ∀ j, prev = some j → j < n) (h : lookupLoop seq last prev blocks cur = some found) :
    ∀ j, found.1 = some j → j < n := by
  induction blocks generalizing cur with
  | nil => cases h
  | cons b rest ih =>
    rw [length_cons] at hlen
    rw [lookupLoop] at h
    split at h
    · split at h
      · cases h
        intro j hj
        cases hj
        omega
      · cases h
        intro j hj
        rw [Nat.ppred_eq_some] at hj
        omega
    · simp only at h
      generalize (if rest = [] then none else some (cur + 1)) = next at h
      by_cases hlast : next = last
      · rw [if_pos hlast] at h
        cases h
        exact hprev
      · rw [if_neg hlast] at h
        exact ih (by omega) h

theorem sackBlockLookup_holds {scb : Scoreboard} {low high : ℕ} {ranges : List (ℕ × ℕ)}
    (h : scb.Holds low high ranges) (hfound : scb.sackBlockLookup seq = some found) :
    found.1.Holds low high ranges := by
  have hlen : scb.sackblocks.length = ranges.length := by
    rw [h.blocks, length_map]
  have htail : ∀ j, scb.sackblocks.length.ppred = some j → j < ranges.length := by
    intro j hj
    rw [Nat.ppred_eq_some] at hj
    omega
  unfold sackBlockLookup at hfound
  split_ifs at hfound
  · cases hfound
    exact h
  · rw [Option.map_eq_some_iff] at hfound
    obtain ⟨answer, hanswer, rfl⟩ := hfound
    refine ⟨h.blocks, h.apart, h.count, h.limit, ?_⟩
    simp only [sackBlockSearch] at hanswer
    cases hhint : scb.lastfound with
    | none =>
      rw [hhint] at hanswer
      exact lookupLoop_place (by omega) htail hanswer
    | some hint =>
      have hlt := h.hint hint hhint
      simp only [hhint] at hanswer
      split at hanswer
      · cases hanswer
      · split_ifs at hanswer
        · apply lookupLoop_place _ htail hanswer
          rw [length_drop]
          omega
        · apply lookupLoop_place (by omega) _ hanswer
          intro j hj
          rw [Nat.ppred_eq_some] at hj
          omega

end Scoreboard

namespace SackConn

open SackTcpcb

/-- The scoreboard holds ranges of the window as it was at the last update, and
the blocks that arrived name them. -/
structure Tracks (c : SackConn) (ranges : List (ℕ × ℕ)) : Prop where
  sndUna : c.tp.sndUna = serial 32 c.una
  sndMax : c.tp.sndMax = serial 32 c.max
  ordered : c.una ≤ c.max
  window : c.max < c.una + 2 ^ 30
  holds : c.tp.scb.Holds c.synced c.max ranges
  named : NamedBy c.received ranges

variable {c : SackConn} {ranges : List (ℕ × ℕ)}

theorem Fresh.tracks (h : c.Fresh) : c.Tracks [] := by
  obtain ⟨tp, htp⟩ := h.board
  refine ⟨h.sndUna, h.sndMax, h.ordered, h.window, ?_, ?_⟩
  · rw [htp]
    exact ⟨rfl, nil, rfl, Nat.zero_le _, fun _ hj => by cases hj⟩
  · intro x hx
    simp [Covers] at hx

theorem Tracks.ack (h : c.Tracks ranges) (hwindow : c.InWindow (.ack una env option))
    (hstraight : c.Straight (.ack una env option)) :
    ∃ c' ranges', c.next (.ack una env option) = some c' ∧ c'.Tracks ranges' ∧
      c'.synced = c'.una := by
  obtain ⟨hlow, hhigh⟩ := hwindow
  obtain ⟨hblocks, hnear⟩ := hstraight
  have hlt := h.window
  -- an empty scoreboard may be taken to be up to date
  obtain ⟨low, hholds, hclose⟩ : ∃ low, c.tp.scb.Holds low c.max ranges ∧ una ≤ low + 2 ^ 31 := by
    rcases hnear with hempty | hnear
    · have hnil : ranges = [] := by
        have hmap := h.holds.blocks
        rw [hempty] at hmap
        exact map_eq_nil_iff.mp hmap.symm
      subst hnil
      exact ⟨una, ⟨hempty, nil, h.holds.count, h.holds.limit, h.holds.hint⟩,
        Nat.le_add_right _ _⟩
    · exact ⟨c.synced, h.holds, hnear⟩
  have hwide : c.max ≤ una + maxWindow := by
    unfold maxWindow
    omega
  obtain ⟨updated, ranges', hupdate, huna, hmax, hholds', hnamed⟩ :=
    tcpSackUpdateScoreboard_holds { c.tp with sndUna := serial 32 una } env option
      hholds hclose hhigh hwide rfl h.sndMax h.named hblocks
  refine ⟨{ c with
    una
    synced := una
    received := c.received ++ tcpDooptionsSack option
    tp := updated.1 }, ranges', ?_, ?_, rfl⟩
  · simp only [next, hupdate]
    rfl
  · constructor
    · exact huna
    · exact hmax.trans h.sndMax
    · exact hhigh
    · simp only
      omega
    · exact hholds'
    · exact hnamed

theorem Tracks.next (h : c.Tracks ranges) (hwindow : c.InWindow event)
    (hstraight : c.Straight event) (hnext : c.next event = some c') :
    ∃ ranges', c'.Tracks ranges' := by
  have hlt := h.window
  cases event with
  | send max =>
    cases hnext
    obtain ⟨hgrow, hbound⟩ := hwindow
    refine ⟨ranges, h.sndUna, rfl, h.ordered.trans hgrow, hbound, ?_, h.named⟩
    exact ⟨h.holds.blocks, h.holds.apart.mono le_rfl hgrow, h.holds.count,
      h.holds.limit, h.holds.hint⟩
  | search p =>
    simp only [SackConn.next, Option.map_eq_some_iff] at hnext
    obtain ⟨found, hfound, rfl⟩ := hnext
    exact ⟨ranges, h.sndUna, h.sndMax, h.ordered, h.window,
      sackBlockLookup_holds h.holds hfound, h.named⟩
  | timeout =>
    cases hnext
    have hclean := tcpSackCleanup_holds h.holds c.synced c.max
    refine ⟨[], h.sndUna, h.sndMax, h.ordered, h.window, ?_, ?_⟩
    · exact ⟨hclean.blocks, hclean.apart, hclean.count, hclean.limit, hclean.hint⟩
    · intro x hx
      simp [Covers] at hx
  | predicted una =>
    cases hnext
    obtain ⟨hadvance, hbound⟩ := hwindow
    refine ⟨ranges, rfl, h.sndMax, hbound, ?_, h.holds, h.named⟩
    simp only
    omega
  | ack una env option =>
    obtain ⟨conn, ranges', hconn, htracks, -⟩ := h.ack hwindow hstraight
    rw [hconn] at hnext
    cases hnext
    exact ⟨ranges', htracks⟩

theorem Tracks.wellFormed (h : c.Tracks ranges) (hsynced : c.synced = c.una) : c.WellFormed := by
  have hholds := h.holds
  have hlt := h.window
  rw [hsynced] at hholds
  have hlen : c.tp.scb.sackblocks.length = ranges.length := by
    rw [hholds.blocks, length_map]
  constructor
  · exact ⟨ranges, hholds.blocks, hholds.apart.pairwise, hholds.apart.bounds⟩
  · rw [hlen]
    exact hholds.count
  · rw [hlen]
    exact hholds.limit
  · intro b hb seq hseq
    rw [hholds.blocks, mem_map] at hb
    obtain ⟨r, hr, rfl⟩ := hb
    have hbounds := hholds.apart.bounds r hr
    obtain ⟨x, hlow, hhigh, rfl⟩ := hseq.position hbounds.2.1 (by omega)
    exact h.named x ⟨r, hr, hlow, hhigh⟩
  · intro p hlow hhigh
    refine ⟨locate p 0 ranges, fun hint hvalid => ?_⟩
    have hmoved : { c.tp.scb with lastfound := hint }.Holds c.una c.max ranges :=
      ⟨hholds.blocks, hholds.apart, hholds.count, hholds.limit, fun j hj => hlen ▸ hvalid j hj⟩
    have hwide : c.max ≤ c.una + maxWindow := by
      unfold maxWindow
      omega
    rw [sackBlockLookup_eq hmoved hwide hlow hhigh.le]
    rfl

/-- The events of a sender in its window whose options do not go round it. -/
def Disciplined (c : SackConn) (event : SackEvent) : Prop :=
  c.InWindow event ∧ c.Straight event

theorem tracks_of_reachable (h : Reachable Fresh Disciplined next c) :
    ∃ ranges, c.Tracks ranges := by
  apply h.invariant fun c => ∃ ranges, c.Tracks ranges
  · exact fun c hfresh => ⟨[], hfresh.tracks⟩
  · rintro c event c' ⟨ranges, htracks⟩ hallow hnext
    exact htracks.next hallow.1 hallow.2 hnext

/-- After every update the scoreboard is well formed, and the update returns. -/
theorem update_wellFormed {c : SackConn} (h : Reachable Fresh Disciplined next c) {una : ℕ}
    {env : SackEnv} {option : List RawSackBlock} (hack : c.Disciplined (.ack una env option)) :
    ∃ c', c.next (.ack una env option) = some c' ∧ c'.WellFormed := by
  obtain ⟨ranges, htracks⟩ := tracks_of_reachable h
  obtain ⟨c', ranges', hnext, htracks', hsynced⟩ := htracks.ack hack.1 hack.2
  exact ⟨c', hnext, htracks'.wellFormed hsynced⟩

/-! ## Senders at work -/

/-- A sender that has just started at `una` and sent up to `max`. -/
def opened (una max : ℕ) : SackConn where
  una
  max
  synced := una
  received := []
  tp :=
    { sndUna := serial 32 una
      sndMax := serial 32 max
      rexmtHigh := serial 32 una
      rexmtRescue := serial 32 una
      sackRescued := false
      tMaxseg := 1460
      tRxtthresh := 3
      scb := ⟨0, [], serial 32 una, none, false⟩ }

def quietEnv : SackEnv where
  tcpDoRfc6675 := true
  tcpAggressiveRescuesack := false
  kmalloc _ := true

theorem opened_fresh (hle : una ≤ max) (hlt : max < una + 2 ^ 30) : (opened una max).Fresh :=
  ⟨⟨(opened una max).tp, rfl⟩, rfl, rfl, hle, hlt, rfl⟩

theorem opened_ack_disciplined : (opened (2 ^ 32 - 500) (2 ^ 32 + 500)).Disciplined
    (.ack (2 ^ 32 - 500) quietEnv [⟨20, 50⟩]) := by
  refine ⟨⟨by decide, by decide⟩, ?_, Or.inl rfl⟩
  decide

theorem removeAcked_empty (thAck : TcpSeq) {scb : Scoreboard} (h : scb.sackblocks = []) :
    removeAcked thAck scb = scb := by
  rw [removeAcked]
  split
  · rfl
  · rename_i heq
    rw [h] at heq
    cases heq

theorem not_wellFormed_of_block (hblocks : c.tp.scb.sackblocks = [b])
    (hout : ∀ x, c.una < x → x < c.max → serial 32 x ≠ b.sblkStart) : ¬c.WellFormed := by
  intro h
  obtain ⟨ranges, hranges, -, hbounds⟩ := h.ranges
  rw [hblocks] at hranges
  cases ranges with
  | nil => cases hranges
  | cons r rest =>
    rw [map_cons] at hranges
    have hr := hbounds r mem_cons_self
    apply hout r.1 hr.1 (by omega)
    rw [(List.cons.inj hranges).1]
    rfl

/-- A sender across the wrap of the sequence numbers: one block is stored, and the
next ACK brings one that touches it from below. -/
theorem update_wellFormed_wrap :
    ∃ c c', Reachable Fresh Disciplined next c ∧ c.tp.scb.sackblocks = [⟨20, 50⟩] ∧
      c.next (.ack (2 ^ 32 - 400) quietEnv [⟨2 ^ 32 - 100, 20⟩]) = some c' ∧ c'.WellFormed := by
  have hopened : Reachable Fresh Disciplined next (opened (2 ^ 32 - 500) (2 ^ 32 + 500)) :=
    .start (opened_fresh (by decide) (by decide))
  have hnext : ((opened (2 ^ 32 - 500) (2 ^ 32 + 500)).next
      (.ack (2 ^ 32 - 500) quietEnv [⟨20, 50⟩])).map
        (fun c => (c.una, c.max, c.synced, c.tp.sndMax, c.tp.scb.sackblocks)) =
      some (2 ^ 32 - 500, 2 ^ 32 + 500, 2 ^ 32 - 500, 500, [⟨20, 50⟩]) := by
    simp only [next, tcpSackUpdateScoreboard, tcpSackAckBlocks, opened, removeAcked_empty]
    decide
  rw [Option.map_eq_some_iff] at hnext
  obtain ⟨c, hc, heq⟩ := hnext
  simp only [Prod.mk.injEq] at heq
  obtain ⟨huna, hmax, hsynced, hsndMax, hblocks⟩ := heq
  have hreach : Reachable Fresh Disciplined next c := .step hopened opened_ack_disciplined hc
  have hsecond : c.Disciplined (.ack (2 ^ 32 - 400) quietEnv [⟨2 ^ 32 - 100, 20⟩]) := by
    simp only [Disciplined, InWindow, Straight, huna, hmax, hsynced, hsndMax]
    refine ⟨by decide, by decide, Or.inr (by decide)⟩
  obtain ⟨c', hc', hwf⟩ := update_wellFormed hreach hsecond
  exact ⟨c, c', hreach, hblocks, hc', hwf⟩

/-- A block that starts just short of half a turn past `snd_una` and ends half a
turn past `snd_max` is taken in. -/
theorem wrapped_block_enters :
    ∃ c c', Reachable Fresh InWindow next c ∧
      c.InWindow (.ack 0 quietEnv [⟨2 ^ 31 - 1, 2 ^ 31 + 1000⟩]) ∧
      c.next (.ack 0 quietEnv [⟨2 ^ 31 - 1, 2 ^ 31 + 1000⟩]) = some c' ∧ ¬c'.WellFormed := by
  have hnext : ((opened 0 1000).next (.ack 0 quietEnv [⟨2 ^ 31 - 1, 2 ^ 31 + 1000⟩])).map
        (fun c => (c.una, c.max, c.tp.scb.sackblocks)) =
      some (0, 1000, [⟨2 ^ 31 - 1, 2 ^ 31 + 1000⟩]) := by
    simp only [next, tcpSackUpdateScoreboard, tcpSackAckBlocks, opened, removeAcked_empty]
    decide
  rw [Option.map_eq_some_iff] at hnext
  obtain ⟨c', hc', heq⟩ := hnext
  simp only [Prod.mk.injEq] at heq
  obtain ⟨huna, hmax, hblocks⟩ := heq
  refine ⟨opened 0 1000, c', .start (opened_fresh (by decide) (by decide)),
    ⟨by decide, by decide⟩, hc', ?_⟩
  apply not_wellFormed_of_block hblocks
  intro x hlow hhigh heq
  have hval := congrArg BitVec.toNat heq
  rw [serial, BitVec.toNat_ofNat, Nat.mod_eq_of_lt (by omega)] at hval
  rw [hmax] at hhigh
  have hstart : (2 ^ 31 - 1 : BitVec 32).toNat = 2 ^ 31 - 1 := by decide
  rw [hstart] at hval
  omega

end SackConn

end DragonFly.Netinet
