import DragonFly.SerialNumber
import DragonFly.TcpReass

/-!
# Reassembly delivers the stream

Positions in the stream are natural numbers, and a sequence number is the low 32
bits of one.  The queue is a chain of ranges with a gap before each of them, so
presenting its first entry leaves no other entry to present.
-/

namespace DragonFly.Netinet

open List Serial

def stream (f : ℕ → UInt8) (start len : ℕ) : List UInt8 :=
  (List.range' start len).map f

/-- The largest distance from `rcv_nxt` of the end of a segment. -/
def maxWindow : ℕ := 2 ^ 30

/-- A queue entry holds the stream from `start` to `stop`. -/
structure TsegQent.Holds (f : ℕ → UInt8) (start stop : ℕ) (q : TsegQent) :
    Prop where
  pos : start < stop
  seq : q.tqeTh.thSeq = serial 32 start
  len : q.tqeLen = stop - start
  data : q.tqeM = stream f start (stop - start)

/-- The entries of a queue hold the stream on ranges in order, each behind a gap
after the range before it; `low` counts as the end of a range before the first
one, and `last` is the end of the last range. -/
inductive Chain (f : ℕ → UInt8) : ℕ → List TsegQent → ℕ → Prop
  | nil (low : ℕ) : Chain f low [] low
  | cons {low start stop last : ℕ} {q : TsegQent} {rest : List TsegQent}
      (hgap : low < start) (hholds : q.Holds f start stop)
      (hrest : Chain f stop rest last) :
      Chain f low (q :: rest) last

/-! ## The stream -/

theorem length_stream (f : ℕ → UInt8) (start len : ℕ) : (stream f start len).length = len := by
  simp [stream]

theorem stream_append (f : ℕ → UInt8) (start len len' : ℕ) :
    stream f start len ++ stream f (start + len) len' = stream f start (len + len') := by
  unfold stream
  rw [← map_append]
  congr 1
  rw [range'_append_1]

theorem drop_stream (f : ℕ → UInt8) (start len n : ℕ) :
    (stream f start len).drop n = stream f (start + n) (len - n) := by
  unfold stream
  rw [← map_drop, drop_range', Nat.mul_one]

/-! ## Entries -/

namespace TsegQent.Holds

variable {f : ℕ → UInt8} {start stop : ℕ} {q : TsegQent}

variable (h : q.Holds f start stop)
include h

theorem stop_eq : q.stop = serial 32 stop := by
  have hpos := h.pos
  rw [TsegQent.stop, h.seq, h.len, serial_add]
  congr 1
  omega

theorem append {stop' : ℕ} {q' : TsegQent} (h' : q'.Holds f stop stop') (fin : Bool) :
    TsegQent.Holds f start stop'
      { tqeTh := { q.tqeTh with fin := fin }
        tqeLen := q.tqeLen + q'.tqeLen
        tqeM := q.tqeM ++ q'.tqeM } := by
  have hpos := h.pos
  have hpos' := h'.pos
  have hlen : stop - start + (stop' - stop) = stop' - start := by omega
  have hjoin : start + (stop - start) = stop := by omega
  constructor
  · omega
  · exact h.seq
  · rw [h.len, h'.len]
    exact hlen
  · rw [h.data, h'.data, ← hlen, ← stream_append, hjoin]

theorem withFin (fin : Bool) :
    TsegQent.Holds f start stop
      { q with tqeTh := { q.tqeTh with fin := fin } } :=
  ⟨h.pos, h.seq, h.len, h.data⟩

theorem trim (hle : start ≤ cut) (hlt : cut < stop) :
    TsegQent.Holds f cut stop
      { tqeTh := { q.tqeTh with
          thSeq := q.tqeTh.thSeq + BitVec.ofInt 32 ((cut : ℤ) - start) }
        tqeLen := q.tqeLen - ((cut : ℤ) - start).toNat
        tqeM := q.tqeM.drop ((cut : ℤ) - start).toNat } := by
  have hnat : ((cut : ℤ) - start).toNat = cut - start := by omega
  have hcut : start + (cut - start) = cut := by omega
  have hrest : stop - start - (cut - start) = stop - cut := by omega
  constructor
  · exact hlt
  · rw [h.seq, serial_add_ofInt _ (by omega), hnat, hcut]
  · rw [h.len, hnat]
    exact hrest
  · rw [h.data, hnat, drop_stream, hcut, hrest]

end TsegQent.Holds

/-! ## Chains -/

variable {queue : List TsegQent} {low last mid a nxt tlen isn : ℕ} {th : Tcphdr} {m : List UInt8}
  {tp tp' : Tcpcb}

variable {f : ℕ → UInt8}

theorem Chain.low_le (h : Chain f low queue last) : low ≤ last := by
  induction h with
  | nil low => exact le_rfl
  | cons hgap hholds hrest ih =>
    have hpos := hholds.pos
    omega

theorem Chain.append (h : Chain f low queue mid) (h' : Chain f mid queue' last) :
    Chain f low (queue ++ queue') last := by
  induction h with
  | nil low => exact h'
  | cons hgap hholds hrest ih => exact .cons hgap hholds (ih h')

theorem Chain.getLast (h : Chain f low queue last) (hlast : queue.getLast? = some p) :
    ∃ mid start, Chain f low queue.dropLast mid ∧ mid < start ∧ p.Holds f start last := by
  induction h with
  | nil low => simp at hlast
  | @cons low start stop last q rest hgap hholds hrest ih =>
    cases hrest with
    | nil =>
      rw [getLast?_singleton, Option.some.injEq] at hlast
      subst hlast
      exact ⟨low, start, .nil low, hgap, hholds⟩
    | cons hgap' hholds' hrest' =>
      rw [getLast?_cons_cons] at hlast
      obtain ⟨mid, start', hchain, hlt, hp⟩ := ih hlast
      exact ⟨mid, start', .cons hgap hholds hchain, hlt, hp⟩

theorem Chain.eq_nil_of_getLast (h : Chain f low queue last) (hlast : queue.getLast? = none) :
    queue = [] ∧ last = low := by
  rw [getLast?_eq_none_iff] at hlast
  subst hlast
  cases h with
  | nil => exact ⟨rfl, rfl⟩

theorem seqGt_serial (ha : nxt ≤ a) (ha' : a ≤ nxt + maxWindow) (hb : nxt ≤ b)
    (hb' : b ≤ nxt + maxWindow) : seqGt (serial 32 a) (serial 32 b) = true ↔ b < a := by
  unfold maxWindow at ha' hb'
  unfold seqGt
  rw [toInt_sub (w := 31) (by omega) (by omega), decide_eq_true_eq]
  omega

/-! ## Merging a segment -/

theorem findAfter_chain
    (h : Chain f low queue last) (hlow : nxt ≤ low) (hlast : last ≤ nxt + maxWindow)
    (ha : nxt ≤ a) (ha' : a ≤ nxt + maxWindow) :
    ∃ mid, Chain f low (findAfter (serial 32 a) queue).1 mid ∧
      Chain f mid (findAfter (serial 32 a) queue).2 last := by
  induction h with
  | nil low => exact ⟨low, .nil low, .nil low⟩
  | @cons low start stop last q rest hgap hholds hrest ih =>
    have hpos := hholds.pos
    have hle := hrest.low_le
    have hiff := seqGt_serial (by omega : nxt ≤ start)
      (by omega : start ≤ nxt + maxWindow) ha ha'
    unfold findAfter
    rw [hholds.seq]
    by_cases hafter : a < start
    · rw [if_pos (hiff.mpr hafter)]
      exact ⟨low, .nil low, .cons hgap hholds hrest⟩
    · rw [if_neg (fun hgt => hafter (hiff.mp hgt))]
      obtain ⟨mid, hbefore, hrest'⟩ := ih (by omega) hlast
      exact ⟨mid, .cons hgap hholds hbefore, hrest'⟩

variable {start stop : ℕ}

/-- The entries behind the segment, whose range ends at `stop`: what is left of
them starts no earlier. -/
theorem trimSucceeding_chain
    (sack : SackState) (hseq : th.thSeq = serial 32 start) (hstop : start + tlen = stop)
    (h : Chain f low queue last) (hlow : nxt ≤ low) (hlt : low ≤ stop) (hstart : nxt ≤ start)
    (hend : stop ≤ nxt + maxWindow) (hlast : last ≤ nxt + maxWindow) :
    ∃ last' ≤ nxt + maxWindow, Chain f (stop - 1) (trimSucceeding tlen sack th queue).2.2 last' ∧
      (trimSucceeding tlen sack th queue).2.1.thSeq = serial 32 start := by
  induction h generalizing sack th with
  | nil low =>
    exact ⟨stop - 1, by omega, .nil _, hseq⟩
  | @cons low qstart qstop last q rest hgap hholds hrest ih =>
    have hpos := hholds.pos
    have hle := hrest.low_le
    have hdiff : (th.thSeq + BitVec.ofNat 32 tlen - q.tqeTh.thSeq).toInt = (stop : ℤ) - qstart := by
      unfold maxWindow at hend hlast
      rw [hseq, hholds.seq, serial_add, hstop]
      exact toInt_sub (w := 31) (by omega) (by omega)
    unfold trimSucceeding
    simp only [hdiff]
    split_ifs with hbehind hpart
    · exact ⟨last, hlast, .cons (by omega) hholds hrest, hseq⟩
    · rw [hholds.len] at hpart
      have hcut := hholds.trim (by omega : qstart ≤ stop) (by omega)
      exact ⟨last, hlast, .cons (by omega) hcut hrest, hseq⟩
    · rw [hholds.len] at hpart
      exact ih (sack.overlap q) hseq (by omega) (by omega) hlast

theorem coalesceFollowing_chain (sack : SackState) {te : TsegQent} (hte : te.Holds f start stop)
    (h : Chain f (stop - 1) queue last) (hstart : nxt ≤ start)
    (hend : stop ≤ nxt + maxWindow) (hlast : last ≤ nxt + maxWindow) :
    ∃ stop' last', stop ≤ stop' ∧ last' ≤ nxt + maxWindow ∧
      (coalesceFollowing sack te queue).2.1.Holds f start stop' ∧
      Chain f stop' (coalesceFollowing sack te queue).2.2 last' := by
  have hpos := hte.pos
  cases h with
  | nil => exact ⟨stop, stop, le_rfl, hend, hte, .nil stop⟩
  | @cons _ qstart qstop _ q rest hgap hholds hrest =>
    have hqpos := hholds.pos
    have hle := hrest.low_le
    have hiff : te.stop = q.tqeTh.thSeq ↔ stop = qstart := by
      unfold maxWindow at hend hlast
      rw [hte.stop_eq, hholds.seq]
      exact eq_iff (w := 31) (by omega) (by omega)
    simp only [coalesceFollowing]
    by_cases hmeets : stop = qstart
    · subst hmeets
      rw [if_pos (hiff.mpr rfl)]
      exact ⟨qstop, last, hqpos.le, hlast, hte.append hholds _, hrest⟩
    · rw [if_neg (fun heq => hmeets (hiff.mp heq))]
      exact ⟨stop, last, le_rfl, hlast, hte, .cons (by omega) hholds hrest⟩

/-- The queue once a segment that starts at or after `rcv_nxt` is in it: a chain,
possibly without a gap before its first entry. -/
inductive Linked (f : ℕ → UInt8) (nxt high : ℕ) (queue : List TsegQent) : Prop
  | behind {last : ℕ} (hlast : last ≤ high) (hchain : Chain f nxt queue last)
  | ready {stop last : ℕ} {te : TsegQent} {rest : List TsegQent}
      (hlast : last ≤ high) (hqueue : queue = te :: rest)
      (hte : te.Holds f nxt stop) (hchain : Chain f stop rest last)

theorem linkEntry_linked {before after : List TsegQent} (sack : SackState) {te : TsegQent}
    (hbefore : Chain f nxt before mid) (hmid : mid ≤ start)
    (hte : te.Holds f start stop) (hafter : Chain f stop after last)
    (hlast : last ≤ nxt + maxWindow) :
    Linked f nxt (nxt + maxWindow) (linkEntry sack before te after).2 := by
  have hpos := hte.pos
  have hle := hafter.low_le
  have hlow := hbefore.low_le
  unfold linkEntry
  cases hgetLast : before.getLast? with
  | none =>
    obtain ⟨rfl, rfl⟩ := hbefore.eq_nil_of_getLast hgetLast
    rcases Nat.eq_or_lt_of_le hmid with heq | hlt
    · subst heq
      exact .ready hlast rfl hte hafter
    · exact .behind hlast (.cons hlt hte hafter)
  | some p =>
    obtain ⟨mid', pstart, hinit, hgap, hp⟩ := hbefore.getLast hgetLast
    have hiff : p.stop = te.tqeTh.thSeq ↔ mid = start := by
      unfold maxWindow at hlast
      rw [hp.stop_eq, hte.seq]
      exact eq_iff (w := 31) (by omega) (by omega)
    simp only
    by_cases hmeets : mid = start
    · subst hmeets
      rw [if_pos (hiff.mpr rfl)]
      exact .behind hlast (hinit.append (.cons hgap (hp.append hte _) hafter))
    · rw [if_neg (fun heq => hmeets (hiff.mp heq))]
      exact .behind hlast (hbefore.append (.cons (by omega) hte hafter))

theorem queueSegment_linked (tp : Tcpcb) {before after : List TsegQent}
    (hbefore : Chain f nxt before mid) (hafter : Chain f mid after last)
    (hmid : mid ≤ start) (hpos : start < stop)
    (hseq : th.thSeq = serial 32 start) (htlen : tlen = stop - start)
    (hm : m = stream f start (stop - start))
    (hend : stop ≤ nxt + maxWindow) (hlast : last ≤ nxt + maxWindow) :
    Linked f nxt (nxt + maxWindow) (queueSegment tp before after th tlen m).tSegq := by
  have hlow := hbefore.low_le
  obtain ⟨last1, hlast1, hchain1, hseq1⟩ :=
    trimSucceeding_chain tp.sack hseq (by omega : start + tlen = stop) hafter
      hlow (by omega) (by omega) hend hlast
  have hte : TsegQent.Holds f start stop
      { tqeTh := (trimSucceeding tlen tp.sack th after).2.1
        tqeLen := tlen
        tqeM := m } :=
    ⟨hpos, hseq1, htlen, hm⟩
  obtain ⟨stop2, last2, hle2, hlast2, hte2, hchain2⟩ :=
    coalesceFollowing_chain (trimSucceeding tlen tp.sack th after).1 hte
      hchain1 (by omega : nxt ≤ start) hend hlast1
  exact linkEntry_linked _ hbefore hmid hte2 hchain2 hlast2

theorem mergeSegment_linked
    (tp : Tcpcb) (hchain : Chain f nxt tp.tSegq last) (hstart : nxt ≤ start) (hpos : start < stop)
    (hseq : th.thSeq = serial 32 start) (htlen : tlen = stop - start)
    (hm : m = stream f start (stop - start))
    (hend : stop ≤ nxt + maxWindow) (hlast : last ≤ nxt + maxWindow) :
    Linked f nxt (nxt + maxWindow) (mergeSegment tp th tlen m).tSegq := by
  obtain ⟨mid, hbefore, hafter⟩ := findAfter_chain hchain le_rfl hlast
    hstart (by omega : start ≤ nxt + maxWindow)
  have hlow := hbefore.low_le
  have hmidle := hafter.low_le
  unfold mergeSegment
  rw [hseq]
  simp only
  cases hgetLast : (findAfter (serial 32 start) tp.tSegq).1.getLast? with
  | none =>
    obtain ⟨-, rfl⟩ := hbefore.eq_nil_of_getLast hgetLast
    exact queueSegment_linked tp hbefore hafter hstart hpos hseq htlen hm hend hlast
  | some p =>
    obtain ⟨mid', pstart, hinit, hgap, hp⟩ := hbefore.getLast hgetLast
    have hdiff : (p.stop - serial 32 start).toInt = (mid : ℤ) - start := by
      unfold maxWindow at hend hlast
      rw [hp.stop_eq]
      exact toInt_sub (w := 31) (by omega) (by omega)
    simp only [hdiff]
    split_ifs with hoverlap
    · unfold overlapPreceding
      split_ifs with hinside
      · -- the preceding entry has all of the segment
        have hp' := hp.withFin (p.tqeTh.fin || th.fin)
        exact .behind hlast (hinit.append (.cons hgap hp' hafter))
      · have hsegment : TsegQent.Holds f start stop ⟨th, tlen, m⟩ := ⟨hpos, hseq, htlen, hm⟩
        have hcut := hsegment.trim (by omega : start ≤ mid) (by omega)
        exact queueSegment_linked _ hbefore hafter le_rfl hcut.pos hcut.seq
          hcut.len hcut.data hend hlast
    · exact queueSegment_linked tp hbefore hafter (by omega) hpos hseq
        htlen hm hend hlast

/-! ## Presenting data -/

/-- What the connection holds when the stream began at `isn` and everything
before `nxt` has been delivered. -/
structure Delivering (f : ℕ → UInt8) (isn : ℕ) (tp : Tcpcb) : Prop where
  established : tp.tState = .established
  receiving : tp.cantRcvMore = false
  appended : tp.soRcv = stream f isn tp.soRcv.length
  rcvNxt : tp.rcvNxt = serial 32 (isn + tp.soRcv.length)
  queue : ∃ last ≤ isn + tp.soRcv.length + maxWindow, Chain f (isn + tp.soRcv.length) tp.tSegq last

theorem delivered_stream (h : bytes = stream f isn bytes.length) (hle : isn + bytes.length ≤ stop) :
    bytes ++ stream f (isn + bytes.length) (stop - (isn + bytes.length)) =
        stream f isn (stop - isn) ∧ (bytes ++ stream f (isn + bytes.length)
        (stop - (isn + bytes.length))).length = stop - isn := by
  have hlen : bytes.length + (stop - (isn + bytes.length)) = stop - isn := by
    omega
  constructor
  · nth_rewrite 1 [h]
    rw [stream_append, hlen]
  · rw [length_append, length_stream, hlen]

theorem Delivering.advance
    (h : Delivering f isn tp) (hle : isn + tp.soRcv.length ≤ stop) (hstate : tp'.tState = tp.tState)
    (hreceiving : tp'.cantRcvMore = tp.cantRcvMore)
    (hbytes : tp'.soRcv = tp.soRcv ++ stream f (isn + tp.soRcv.length)
      (stop - (isn + tp.soRcv.length)))
    (hnxt : tp'.rcvNxt = serial 32 stop) (hlast : last ≤ isn + tp.soRcv.length + maxWindow)
    (hchain : Chain f stop tp'.tSegq last) : Delivering f isn tp' := by
  obtain ⟨hstream, hlength⟩ := delivered_stream h.appended hle
  rw [← hbytes] at hstream hlength
  have hstop : isn + tp'.soRcv.length = stop := by omega
  constructor
  · exact hstate.trans h.established
  · exact hreceiving.trans h.receiving
  · rw [hlength]
    exact hstream
  · rw [hstop]
    exact hnxt
  · rw [hstop]
    exact ⟨last, by omega, hchain⟩

theorem Delivering.congr (h : Delivering f isn tp) (hstate : tp'.tState = tp.tState)
    (hreceiving : tp'.cantRcvMore = tp.cantRcvMore)
    (hbytes : tp'.soRcv = tp.soRcv) (hnxt : tp'.rcvNxt = tp.rcvNxt)
    (hqueue : tp'.tSegq = tp.tSegq) : Delivering f isn tp' := by
  constructor
  · exact hstate.trans h.established
  · exact hreceiving.trans h.receiving
  · rw [hbytes]
    exact h.appended
  · rw [hnxt, hbytes]
    exact h.rcvNxt
  · rw [hqueue, hbytes]
    exact h.queue

theorem presentData_delivering (h : Delivering f isn tp) (hstate : tp'.tState = tp.tState)
    (hreceiving : tp'.cantRcvMore = tp.cantRcvMore)
    (hbytes : tp'.soRcv = tp.soRcv) (hnxt : tp'.rcvNxt = tp.rcvNxt)
    (hlinked : Linked f (isn + tp.soRcv.length)
      (isn + tp.soRcv.length + maxWindow) tp'.tSegq) : Delivering f isn (presentData tp').1 := by
  have hestablished : tp'.tState.haveEstablished = true := by
    rw [hstate, h.established]
    rfl
  have hreceive : tp'.cantRcvMore = false := hreceiving.trans h.receiving
  have hnxt' : tp'.rcvNxt = serial 32 (isn + tp.soRcv.length) := hnxt.trans h.rcvNxt
  unfold presentData
  rw [if_neg (by rw [hestablished]; exact Bool.noConfusion)]
  cases hlinked with
  | @behind last hlast hchain =>
    have hsame : Delivering f isn tp' := by
      apply h.advance le_rfl hstate hreceiving ?_ hnxt' hlast hchain
      rw [hbytes, Nat.sub_self]
      simp [stream]
    cases hqueue : tp'.tSegq with
    | nil => exact hsame
    | cons q rest =>
      rw [hqueue] at hchain
      cases hchain with
      | @cons _ start stop _ _ _ hgap hholds hrest =>
        have hle := hrest.low_le
        have hpos := hholds.pos
        have hne : q.tqeTh.thSeq ≠ tp'.rcvNxt := by
          unfold maxWindow at hlast
          rw [hholds.seq, hnxt', Ne, eq_iff (w := 31) (by omega) (by omega)]
          omega
        simp only [if_pos hne]
        exact hsame
  | @ready stop last te rest hlast hqueue hte hchain =>
    have hpos := hte.pos
    simp only [hqueue, hte.seq, hnxt', ne_eq, not_true_eq_false, if_false]
    refine h.advance hpos.le ?_ ?_ ?_ ?_ hlast ?_
    · exact hstate
    · exact hreceiving
    · simp only [hreceive, Bool.false_eq_true, if_false]
      rw [hbytes, hte.data]
    · simp only
      rw [hte.len, serial_add]
      congr 1
      omega
    · exact hchain

/-! ## Segments -/

/-- A data segment of the stream `f`, from position `start` to `stop`. -/
structure DataSegment (f : ℕ → UInt8) (start stop : ℕ) (th : Tcphdr)
    (tlen : ℕ) (m : List UInt8) : Prop where
  pos : start < stop
  seq : th.thSeq = serial 32 start
  len : tlen = stop - start
  data : m = stream f start (stop - start)

theorem mergeSegment_other (tp : Tcpcb) (th : Tcphdr) (tlen : ℕ) (m : List UInt8) :
    (mergeSegment tp th tlen m).tState = tp.tState ∧
      (mergeSegment tp th tlen m).cantRcvMore = tp.cantRcvMore ∧
      (mergeSegment tp th tlen m).soRcv = tp.soRcv ∧
      (mergeSegment tp th tlen m).rcvNxt = tp.rcvNxt := by
  unfold mergeSegment
  simp only
  split
  · exact ⟨rfl, rfl, rfl, rfl⟩
  · split_ifs
    · unfold overlapPreceding
      split_ifs
      · exact ⟨rfl, rfl, rfl, rfl⟩
      · exact ⟨rfl, rfl, rfl, rfl⟩
    · exact ⟨rfl, rfl, rfl, rfl⟩

theorem tcpReass_delivering
    (env : ReassEnv) (h : Delivering f isn tp) (hsegment : DataSegment f start stop th tlen m)
    (hstart : isn + tp.soRcv.length ≤ start) (hend : stop ≤ isn + tp.soRcv.length + maxWindow) :
    Delivering f isn (tcpReass env tp (some (th, tlen, m))).1 := by
  simp only [tcpReass]
  split_ifs with hfull hmemory
  · exact h.congr rfl rfl rfl rfl rfl
  · exact h.congr rfl rfl rfl rfl rfl
  · obtain ⟨last, hlast, hchain⟩ := h.queue
    obtain ⟨hstate, hreceiving, hbytes, hnxt⟩ := mergeSegment_other
      { tp with quedFin := tp.quedFin || th.fin } th tlen m
    exact presentData_delivering h hstate hreceiving hbytes hnxt
      (mergeSegment_linked _ hchain hstart hsegment.pos hsegment.seq
        hsegment.len hsegment.data hend hlast)

theorem tcpInputData_delivering (env : ReassEnv) (thfin : Bool)
    (h : Delivering f isn tp) (hsegment : DataSegment f start stop th tlen m)
    (hstart : isn + tp.soRcv.length ≤ start) (hend : stop ≤ isn + tp.soRcv.length + maxWindow) :
    Delivering f isn (tcpInputData env tp th thfin tlen m).1 := by
  have hpos := hsegment.pos
  have hlen := hsegment.len
  have hdata : (tlen ≠ 0 ∨ thfin = true) ∧ tp.tState.haveRcvdFin = false := by
    rw [h.established]
    exact ⟨Or.inl (by omega), rfl⟩
  unfold tcpInputData
  rw [if_pos hdata]
  by_cases hfast : th.thSeq = tp.rcvNxt ∧ tp.tSegq = [] ∧ tp.tState.haveEstablished = true
  · -- the segment is the next to be received and the queue is empty
    rw [if_pos hfast]
    obtain ⟨hseq, hempty, -⟩ := hfast
    have hfirst : start = isn + tp.soRcv.length := by
      unfold maxWindow at hend
      rw [hsegment.seq, h.rcvNxt, eq_iff (w := 31) (by omega) (by omega)] at hseq
      exact hseq
    refine h.advance (by omega : isn + tp.soRcv.length ≤ stop) ?_ ?_ ?_ ?_
      hend ?_
    · rfl
    · rfl
    · simp only [h.receiving, Bool.false_eq_true, if_false]
      rw [hsegment.data, hfirst]
    · simp only
      rw [h.rcvNxt, hlen, serial_add, ← hfirst]
      congr 1
      omega
    · simp only [hempty]
      exact .nil stop
  · rw [if_neg hfast]
    apply tcpReass_delivering env (h.congr ?_ ?_ ?_ ?_ ?_) hsegment
    · exact hstart
    · exact hend
    all_goals rfl

/-! ## Runs -/

/-- The connections reached by data segments of `f`.  A segment starts no earlier
than `rcv_nxt` and ends inside a window of less than `2 ^ 30` bytes.  The socket
still receives (with `SS_CANTRCVMORE` set the bytes are dropped).  The flag says
that a `FIN` has been delivered, and the connection has left `ESTABLISHED`. -/
inductive Reassembled (f : ℕ → UInt8) (isn : ℕ) : Tcpcb → Bool → Prop
  | start {tp : Tcpcb} (hestablished : tp.tState = .established)
      (hreceiving : tp.cantRcvMore = false)
      (hnxt : tp.rcvNxt = serial 32 isn) (hqueue : tp.tSegq = [])
      (hbytes : tp.soRcv = []) :
      Reassembled f isn tp false
  | segment {tp tp' : Tcpcb} {fin thfin : Bool} {env : ReassEnv}
      {th : Tcphdr} {start stop tlen window : ℕ} {m : List UInt8}
      (hreached : Reassembled f isn tp false)
      (hsegment : DataSegment f start stop th tlen m)
      (hstart : isn + tp.soRcv.length ≤ start)
      (hend : stop ≤ isn + tp.soRcv.length + window)
      (hwindow : window < 2 ^ 30)
      (hinput : tcpInputData env tp th thfin tlen m = (tp', fin)) :
      Reassembled f isn tp' fin

theorem Reassembled.delivering
    {fin : Bool} (h : Reassembled f isn tp fin) : Delivering f isn tp := by
  induction h with
  | start hestablished hreceiving hnxt hqueue hbytes =>
    constructor
    · exact hestablished
    · exact hreceiving
    · rw [hbytes]
      rfl
    · rw [hbytes]
      exact hnxt
    · rw [hqueue, hbytes]
      exact ⟨isn, Nat.le_add_right _ _, .nil isn⟩
  | @segment tp tp' fin thfin env th start stop tlen window m hreached
      hsegment hstart hend hwindow hinput ih =>
      have hstep := tcpInputData_delivering env thfin ih hsegment hstart
        (by unfold maxWindow; omega)
      rw [hinput] at hstep
      exact hstep

theorem Chain.ranges (h : Chain f low queue last) :
    ∃ ranges : List (ℕ × ℕ), List.Forall₂ (fun r q => TsegQent.Holds f r.1 r.2 q) ranges queue ∧
      ranges.Pairwise (fun r r' => r.2 < r'.1) ∧
      ∀ r ∈ ranges, low < r.1 ∧ r.2 ≤ last := by
  induction h with
  | nil low => exact ⟨[], .nil, .nil, by simp⟩
  | @cons low start stop last q rest hgap hholds hrest ih =>
    obtain ⟨ranges, hforall, hpairwise, hbounds⟩ := ih
    have hpos := hholds.pos
    have hle := hrest.low_le
    refine ⟨(start, stop) :: ranges, .cons hholds hforall, ?_, ?_⟩
    · rw [pairwise_cons]
      exact ⟨fun r hr => (hbounds r hr).1, hpairwise⟩
    · intro r hr
      rw [mem_cons] at hr
      rcases hr with rfl | hr
      · exact ⟨hgap, hle⟩
      · have hbound := hbounds r hr
        exact ⟨by omega, hbound.2⟩

/-- The bytes in the socket are the stream from `isn` to `rcv_nxt`, and the queue
holds the stream on ranges that are in order, apart from each other and from
`rcv_nxt`, and inside the window. -/
theorem Reassembled.delivers_stream
    {f : ℕ → UInt8} {isn : ℕ} {tp : Tcpcb} {fin : Bool} (h : Reassembled f isn tp fin) :
    ∃ nxt, isn ≤ nxt ∧ tp.rcvNxt = serial 32 nxt ∧ tp.soRcv = stream f isn (nxt - isn) ∧
      ∃ ranges : List (ℕ × ℕ), List.Forall₂ (fun r q => TsegQent.Holds f r.1 r.2 q) ranges
          tp.tSegq ∧
        ranges.Pairwise (fun r r' => r.2 < r'.1) ∧
        ∀ r ∈ ranges, nxt < r.1 ∧ r.2 ≤ nxt + maxWindow := by
  have hdelivering := h.delivering
  obtain ⟨last, hlast, hchain⟩ := hdelivering.queue
  obtain ⟨ranges, hforall, hpairwise, hbounds⟩ := hchain.ranges
  refine ⟨isn + tp.soRcv.length, Nat.le_add_right _ _, hdelivering.rcvNxt, ?_,
    ranges, hforall, hpairwise, ?_⟩
  · rw [Nat.add_sub_cancel_left]
    exact hdelivering.appended
  · intro r hr
    exact ⟨(hbounds r hr).1, (hbounds r hr).2.trans hlast⟩

/-- A connection about to receive, two bytes before the sequence numbers wrap. -/
def wrappingTcpcb : Tcpcb where
  tState := .established
  rcvNxt := serial 32 (2 ^ 32 - 2)
  tSegq := []
  sawFin := false
  quedFin := false
  sack := ⟨false, false, ⟨0, 0⟩, ⟨0, 0⟩⟩
  cantRcvMore := false
  soRcv := []

/-- Bytes 3 to 6 arrive before bytes 0 to 4; the second segment overlaps the
first and fills the hole before it. -/
theorem Reassembled.delivers_overlap :
    ∃ tp, Reassembled UInt8.ofNat (2 ^ 32 - 2) tp false ∧ tp.tSegq = [] ∧
      tp.soRcv = [254, 255, 0, 1, 2, 3, 4] ∧ ∃ nxt, 2 ^ 32 - 2 ≤ nxt ∧ tp.rcvNxt = serial 32 nxt ∧
        tp.soRcv = stream UInt8.ofNat (2 ^ 32 - 2) (nxt - (2 ^ 32 - 2)) := by
  have hstart : Reassembled UInt8.ofNat (2 ^ 32 - 2) wrappingTcpcb false :=
    .start rfl rfl rfl rfl rfl
  have hfirst : DataSegment UInt8.ofNat (2 ^ 32 + 1) (2 ^ 32 + 5)
      ⟨serial 32 (2 ^ 32 + 1), false⟩ 4 [1, 2, 3, 4] :=
    ⟨by decide, rfl, rfl, rfl⟩
  have hsecond : DataSegment UInt8.ofNat (2 ^ 32 - 2) (2 ^ 32 + 3)
      ⟨serial 32 (2 ^ 32 - 2), false⟩ 5 [254, 255, 0, 1, 2] :=
    ⟨by decide, rfl, rfl, rfl⟩
  obtain ⟨queued, hqueued⟩ : ∃ tp, tcpInputData ⟨0, 100, true⟩ wrappingTcpcb
      ⟨serial 32 (2 ^ 32 + 1), false⟩ false 4 [1, 2, 3, 4] = tp := ⟨_, rfl⟩
  have hone : Reassembled UInt8.ofNat (2 ^ 32 - 2) queued.1 false := by
    refine .segment hstart hfirst (by decide)
      (by decide : 2 ^ 32 + 5 ≤ 2 ^ 32 - 2 + 0 + 100) (by decide)
      (hqueued.trans ?_)
    subst hqueued
    rfl
  obtain ⟨delivered, hdelivered⟩ : ∃ tp, tcpInputData ⟨1, 100, true⟩ queued.1
      ⟨serial 32 (2 ^ 32 - 2), false⟩ false 5 [254, 255, 0, 1, 2] = tp :=
    ⟨_, rfl⟩
  have htwo : Reassembled UInt8.ofNat (2 ^ 32 - 2) delivered.1 false := by
    subst hqueued
    refine .segment hone hsecond (by decide)
      (by decide : 2 ^ 32 + 3 ≤ 2 ^ 32 - 2 + 0 + 100) (by decide)
      (hdelivered.trans ?_)
    subst hdelivered
    rfl
  obtain ⟨nxt, hle, hnxt, hbytes, -⟩ := htwo.delivers_stream
  refine ⟨delivered.1, htwo, ?_, ?_, nxt, hle, hnxt, hbytes⟩
  · subst hdelivered hqueued
    rfl
  · subst hdelivered hqueued
    rfl

end DragonFly.Netinet
