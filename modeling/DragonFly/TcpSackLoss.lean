import DragonFly.TcpSackRun

/-!
# Lost data

The watermark that `tcp_sack_update_lostseq` leaves is compared with the rules of
RFC 3517 and RFC 6675 for a single sequence number.
-/

namespace DragonFly.Netinet

open RangeList List Serial

theorem seqLt_near {a b : ℕ} (hlow : (b : ℤ) - a ≤ 2 ^ 31) (hhigh : (a : ℤ) - b < 2 ^ 31) :
    seqLt (serial 32 a) (serial 32 b) = true ↔ a < b := by
  have hsub : (serial 32 a - serial 32 b).toInt = (a : ℤ) - b :=
    toInt_sub (w := 31) hlow hhigh
  unfold seqLt
  rw [hsub, decide_eq_true_eq]
  omega

namespace Scoreboard

def tcpSackIslost (scb : Scoreboard) (seqnum : TcpSeq) : Bool :=
  seqLt seqnum scb.lostseq

/-! ## The blocks above a sequence number -/

def above (p : ℕ) (ranges : List (ℕ × ℕ)) : List (ℕ × ℕ) :=
  ranges.filter fun r => p < r.1

def sackedBytes (ranges : List (ℕ × ℕ)) : ℕ :=
  (ranges.map fun r => r.2 - r.1).sum

variable {una max : ℕ} {ranges rest top top' : List (ℕ × ℕ)}

theorem sackedBytes_le (h : Apart low high ranges) (hle : low ≤ high) :
    low + sackedBytes ranges ≤ high := by
  induction ranges generalizing low with
  | nil => exact hle
  | cons r rest ih =>
    obtain ⟨hr, hrest⟩ := Apart.cons_iff.mp h
    have hbytes := ih hrest hr.2.2
    simp only [sackedBytes, map_cons, sum_cons] at hbytes ⊢
    omega

theorem sackedBytes_mono (h : top <+ top') : sackedBytes top ≤ sackedBytes top' :=
  (h.map _).sum_le_sum fun _ _ => Nat.zero_le _

/-- The blocks are enough for what lies below them to be lost, with `bytes` the
threshold the loop compares with. -/
def Reached (rxtthresh : ℕ) (bytes : ℤ) (top : List (ℕ × ℕ)) : Prop :=
  top ≠ [] ∧ (rxtthresh ≤ top.length ∨ bytes ≤ sackedBytes top)

theorem Reached.mono (h : Reached rxtthresh bytes top) (hsub : top <+ top') :
    Reached rxtthresh bytes top' := by
  have hsum := sackedBytes_mono hsub
  refine ⟨fun hnil => h.1 ?_, h.2.imp hsub.length_le.trans' fun hle => hle.trans (by omega)⟩
  rw [hnil] at hsub
  exact sublist_nil.mp hsub

/-- The loop stops at the first block that makes the blocks from it on enough. -/
theorem lostseqLoop_watermark {bytes : BitVec 32} (hle : una ≤ max) (hwindow : max < una + 2 ^ 31)
    (hthresh : 1 ≤ rxtthresh) (hthresh' : rxtthresh < 2 ^ 31)
    (h : Apart una max (rest.reverse ++ top)) (htop : ¬Reached rxtthresh bytes.toInt top) :
    ∃ lost, lostseqLoop (serial 32 rxtthresh) bytes (serial 32 una) (rest.map sackBlock)
        (serial 32 top.length) (serial 32 (sackedBytes top)) = serial 32 lost ∧
      una ≤ lost ∧ lost ≤ max ∧ ∀ p, una ≤ p → ¬Covers (rest.reverse ++ top) p →
        (p < lost ↔ Reached rxtthresh bytes.toInt (above p (rest.reverse ++ top))) := by
  induction rest generalizing top with
  | nil =>
    refine ⟨una, rfl, le_rfl, hle, fun p hp _ => ?_⟩
    constructor
    · omega
    · intro hreached
      exact absurd (hreached.mono filter_sublist) htop
  | cons r rest ih =>
    rw [reverse_cons, append_assoc, singleton_append] at h ⊢
    obtain ⟨hinit, hblock, hcross⟩ := Apart.append_iff.mp h
    have hr := hblock.bounds r mem_cons_self
    have hbytes := sackedBytes_le hblock hle
    have hshort : top.length < rxtthresh := by
      cases top with
      | nil => exact hthresh
      | cons t rest => exact not_le.mp fun hle => htop ⟨by simp, Or.inl hle⟩
    have hlength : serial 32 top.length + 1 = serial 32 (r :: top).length :=
      serial_add _ 1
    have hsum : serial 32 (sackedBytes top) + ((sackBlock r).sblkEnd - (sackBlock r).sblkStart) =
        serial 32 (sackedBytes (r :: top)) := by
      simp only [sackBlock]
      rw [sub_of_le hr.2.1.le, serial_add, Nat.add_comm]
      rfl
    have hvalue : (serial 32 (sackedBytes (r :: top))).toInt = sackedBytes (r :: top) := by
      have hsub := toInt_sub (w := 31) (a := sackedBytes (r :: top)) (b := 0)
        (by omega) (by omega)
      simpa [serial] using hsub
    have henough : (serial 32 (r :: top).length = serial 32 rxtthresh ∨
        bytes.toInt ≤ (serial 32 (sackedBytes (r :: top))).toInt) ↔
          Reached rxtthresh bytes.toInt (r :: top) := by
      rw [hvalue, eq_iff (w := 31) (by simp; omega) (by simp; omega), Reached, length_cons]
      simp only [ne_eq, reduceCtorEq, not_false_eq_true, true_and]
      rw [show top.length + 1 = rxtthresh ↔ rxtthresh ≤ top.length + 1 by omega]
    rw [map_cons, lostseqLoop]
    simp only [hlength, hsum]
    by_cases hreached : Reached rxtthresh bytes.toInt (r :: top)
    · rw [if_pos (henough.mpr hreached)]
      refine ⟨r.1, rfl, by omega, by omega, fun p hp hfree => ?_⟩
      unfold above
      rw [filter_append, filter_cons]
      by_cases hlt : p < r.1
      · have hall : top.filter (fun q => p < q.1) = top := by
          rw [filter_eq_self]
          intro q hq
          have hafter := (Apart.cons_iff.mp hblock).2.bounds q hq
          exact decide_eq_true (by omega)
        simp only [hlt, decide_true, if_true, hall, true_iff]
        exact hreached.mono (sublist_append_right _ _)
      · have hnone : (rest.reverse).filter (fun q => p < q.1) = [] := by
          rw [filter_eq_nil_iff]
          intro q hq
          have hbefore := hcross q hq r mem_cons_self
          have hq' := hinit.bounds q hq
          simp only [decide_eq_true_eq]
          omega
        simp only [hlt, decide_false, hnone, nil_append, false_iff]
        exact fun h => htop (h.mono filter_sublist)
    · rw [if_neg (fun hhit => hreached (henough.mp hhit))]
      exact ih h hreached

/-! ## The rules of the RFCs -/

/-- `rxtthresh_bytes` as a number, before it goes into an `int`. -/
def lossBytes (rfc6675 : Bool) (rxtthresh maxseg : ℕ) : ℕ :=
  if rfc6675 then (rxtthresh - 1) * maxseg else rxtthresh * maxseg

/-- When what lies below the blocks is lost: RFC 6675 asks for more bytes than its
threshold, RFC 3517 for as many. -/
def RfcLost (rfc6675 : Bool) (rxtthresh maxseg : ℕ) (top : List (ℕ × ℕ)) : Prop :=
  rxtthresh ≤ top.length ∨
    if rfc6675 then (rxtthresh - 1) * maxseg < sackedBytes top
    else rxtthresh * maxseg ≤ sackedBytes top

/-- Some blocks, but fewer than `rxtthresh`, with exactly the bytes RFC 6675 wants
to see exceeded, or with as many as are left of a product that overflows. -/
def Misjudged (rfc6675 : Bool) (rxtthresh maxseg : ℕ) (top : List (ℕ × ℕ)) : Prop :=
  top ≠ [] ∧ top.length < rxtthresh ∧
    ((rfc6675 = true ∧ sackedBytes top = (rxtthresh - 1) * maxseg) ∨
      2 ^ 31 ≤ lossBytes rfc6675 rxtthresh maxseg ∧
        (lossBytes rfc6675 rxtthresh maxseg : ℤ).bmod (2 ^ 32) ≤ sackedBytes top)

variable {scb : Scoreboard} {maxseg p : ℕ}

theorem tcpSackIslost_iff (hblocks : scb.sackblocks = ranges.map sackBlock)
    (h : Apart una max ranges) (hwindow : max < una + 2 ^ 31) (env : SackEnv) (maxseg : ℕ)
    (hthresh : 1 ≤ rxtthresh) (hthresh' : rxtthresh < 2 ^ 31) (hp : una ≤ p) (hp' : p < max)
    (hfree : ¬Covers ranges p) :
    (scb.tcpSackUpdateLostseq env (serial 32 una) (serial 32 maxseg)
        (serial 32 rxtthresh)).tcpSackIslost (serial 32 p) = true ↔
      Reached rxtthresh ((lossBytes env.tcpDoRfc6675 rxtthresh maxseg : ℤ).bmod (2 ^ 32))
        (above p ranges) := by
  have hone : serial 32 rxtthresh - 1 = serial 32 (rxtthresh - 1) := sub_of_le hthresh
  have hbytes : (if env.tcpDoRfc6675 then (serial 32 rxtthresh - 1) * serial 32 maxseg
      else serial 32 rxtthresh * serial 32 maxseg) =
        serial 32 (lossBytes env.tcpDoRfc6675 rxtthresh maxseg) := by
    rw [hone]
    unfold lossBytes serial
    split_ifs <;> exact (BitVec.ofNat_mul _ _).symm
  obtain ⟨lost, hloop, hlow, hhigh, hlost⟩ :=
    lostseqLoop_watermark (by omega : una ≤ max) hwindow hthresh hthresh'
      (show Apart una max (ranges.reverse.reverse ++ []) by simpa using h)
      (show ¬Reached _ (serial 32 (lossBytes env.tcpDoRfc6675 rxtthresh maxseg)).toInt []
        by simp [Reached])
  rw [reverse_reverse, append_nil] at hlost
  have hlt : seqLt (serial 32 p) (serial 32 lost) = true ↔ p < lost :=
    seqLt_near (by omega) (by omega)
  unfold tcpSackIslost tcpSackUpdateLostseq
  simp only [hbytes, hblocks, ← map_reverse]
  rw [show lostseqLoop _ _ _ _ 0 0 = _ from hloop, hlt, hlost p hp hfree]
  unfold serial
  rw [BitVec.toInt_ofNat']

/-- The watermark follows the rule except for the scoreboards that are misjudged. -/
theorem islost_rfc_iff (hblocks : scb.sackblocks = ranges.map sackBlock)
    (h : Apart una max ranges) (hwindow : max < una + 2 ^ 31) (env : SackEnv)
    (hmaxseg : 0 < maxseg) (hthresh : 2 ≤ rxtthresh) (hthresh' : rxtthresh < 2 ^ 31)
    (hp : una ≤ p) (hp' : p < max) (hfree : ¬Covers ranges p) :
    ((scb.tcpSackUpdateLostseq env (serial 32 una) (BitVec.ofNat 32 maxseg)
        (BitVec.ofNat 32 rxtthresh)).tcpSackIslost (serial 32 p) = true ↔
      RfcLost env.tcpDoRfc6675 rxtthresh maxseg (above p ranges)) ↔
    ¬Misjudged env.tcpDoRfc6675 rxtthresh maxseg (above p ranges) := by
  have hlost := tcpSackIslost_iff hblocks h hwindow env maxseg
    (by omega : 1 ≤ rxtthresh) hthresh' hp hp' hfree
  unfold serial at hlost ⊢
  rw [hlost]
  have hpositive' : 0 < rxtthresh * maxseg := Nat.mul_pos (by omega) hmaxseg
  have hempty : above p ranges = [] → (above p ranges).length = 0 ∧
      sackedBytes (above p ranges) = 0 := by
    intro hnil
    rw [hnil]
    exact ⟨rfl, rfl⟩
  have hbound : sackedBytes (above p ranges) < 2 ^ 31 := by
    have hsum : sackedBytes (above p ranges) ≤ sackedBytes ranges := sackedBytes_mono filter_sublist
    have hall := sackedBytes_le h (by omega)
    omega
  have hwrap : ∀ n : ℕ, (n : ℤ).bmod (2 ^ 32) ≤ n ∧ (n < 2 ^ 31 → (n : ℤ).bmod (2 ^ 32) = n) := by
    intro n
    simp only [Int.bmod]
    split_ifs <;> omega
  unfold Reached RfcLost Misjudged lossBytes
  by_cases hnil : above p ranges = []
  · have := hempty hnil
    simp only [hnil, ne_eq, not_true_eq_false, false_and, not_false_eq_true, iff_true, false_iff]
    rw [← hnil]
    split_ifs <;> omega
  · simp only [hnil, ne_eq, not_false_eq_true, true_and]
    have hproduct := hwrap ((rxtthresh - 1) * maxseg)
    have hproduct' := hwrap (rxtthresh * maxseg)
    cases env.tcpDoRfc6675 with
    | true =>
      simp only [if_true, true_and]
      omega
    | false =>
      simp only [Bool.false_eq_true, if_false, false_and, false_or]
      omega

/-- One block of 2001 bytes with `maxseg` 1000 and `rxtthresh` 3. -/
theorem islost_past_threshold :
    (Scoreboard.tcpSackIslost (tcpSackUpdateLostseq ⟨1, [sackBlock (2000, 4001)], 0, none, false⟩
        SackConn.quietEnv (serial 32 0) (BitVec.ofNat 32 1000) (BitVec.ofNat 32 3))
        (serial 32 0) = true ↔ RfcLost true 3 1000 (above 0 [(2000, 4001)])) :=
  (islost_rfc_iff rfl (Apart.cons_iff.mpr ⟨by decide, Apart.nil⟩ : Apart 0 5000 [(2000, 4001)])
    (by decide) SackConn.quietEnv (by decide) (by decide) (by decide) le_rfl (by decide)
    (by simp [Covers])).mpr (by simp [Misjudged, lossBytes, sackedBytes, above, SackConn.quietEnv])

/-- With exactly 2000 bytes above it the first byte is taken for lost. -/
theorem islost_at_threshold :
    Apart 0 5000 [(2000, 4000)] ∧ ¬Covers [(2000, 4000)] 0 ∧
    ¬(Scoreboard.tcpSackIslost (tcpSackUpdateLostseq ⟨1, [sackBlock (2000, 4000)], 0, none, false⟩
        SackConn.quietEnv (serial 32 0) (BitVec.ofNat 32 1000) (BitVec.ofNat 32 3))
        (serial 32 0) = true ↔ RfcLost true 3 1000 (above 0 [(2000, 4000)])) := by
  refine ⟨Apart.cons_iff.mpr ⟨by decide, Apart.nil⟩, by simp [Covers], fun h => ?_⟩
  have hlost := h.mp (by decide)
  simp [RfcLost, above, sackedBytes] at hlost

end Scoreboard

end DragonFly.Netinet
