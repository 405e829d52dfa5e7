import DragonFly.TcpReass

/-!
# The SACK scoreboard

The blocks of a scoreboard are a list, a pointer into the queue is a place in the
list and a null pointer is `none`.  A function that would follow a null pointer has
no result.
-/

namespace DragonFly.Netinet

def seqLt (a b : TcpSeq) : Bool :=
  (a - b).toInt < 0

def seqLeq (a b : TcpSeq) : Bool :=
  (a - b).toInt ≤ 0

def seqGeq (a b : TcpSeq) : Bool :=
  0 ≤ (a - b).toInt

structure SackBlock where
  sblkStart : TcpSeq
  sblkEnd : TcpSeq
  deriving DecidableEq

def maxSavedBlocks : ℕ := 8

/-- Of the one-slot cache of free blocks only whether it is taken matters. -/
structure Scoreboard where
  nblocks : ℤ
  sackblocks : List SackBlock
  lostseq : TcpSeq
  lastfound : Option ℕ
  freecache : Bool
  deriving DecidableEq

structure SackTcpcb where
  sndUna : TcpSeq
  sndMax : TcpSeq
  rexmtHigh : TcpSeq
  rexmtRescue : TcpSeq
  sackRescued : Bool
  tMaxseg : BitVec 32
  tRxtthresh : BitVec 32
  scb : Scoreboard
  deriving DecidableEq

/-- The `sysctl` settings the code reads, and which allocations of a call find
memory. -/
structure SackEnv where
  tcpDoRfc6675 : Bool
  tcpAggressiveRescuesack : Bool
  kmalloc : ℕ → Bool

namespace Scoreboard

/-! ## The queue of blocks -/

/-- The hint after the block at place `i` is gone. -/
def hintRemoved (i : ℕ) : Option ℕ → Option ℕ
  | none => none
  | some j => if j = i then none else if i < j then some (j - 1) else some j

/-- The hint after a block has come to place `i`. -/
def hintInserted (i : ℕ) : Option ℕ → Option ℕ
  | none => none
  | some j => if i ≤ j then some (j + 1) else some j

section

variable (scb : Scoreboard)

/-- `TAILQ_REMOVE` with `free_sackblock`: the block goes to the cache if that is
empty, and to the system otherwise. -/
def removeBlock (i : ℕ) : Scoreboard :=
  { scb with
    nblocks := scb.nblocks - 1
    sackblocks := scb.sackblocks.eraseIdx i
    lastfound := hintRemoved i scb.lastfound
    freecache := true }

def insertAt (i : ℕ) (block : SackBlock) : Scoreboard :=
  { scb with
    nblocks := scb.nblocks + 1
    sackblocks := scb.sackblocks.insertIdx i block
    lastfound := hintInserted i scb.lastfound }

def setEnd (i : ℕ) (stop : TcpSeq) : Scoreboard :=
  { scb with
    sackblocks := scb.sackblocks.modify i fun b => { b with sblkEnd := stop } }

/-! ## Looking a sequence number up -/

/-- The search loop of `sack_block_lookup`, on the blocks from `cur` on. -/
def lookupLoop (seq : TcpSeq) (last prev : Option ℕ) : List SackBlock → ℕ → Option (Option ℕ × Bool)
  | [], _ => none
  | block :: rest, cur =>
    if seqGt block.sblkEnd seq then
      if seqGeq seq block.sblkStart then some (some cur, true)
      else some (cur.ppred, false)
    else
      let next := if rest = [] then none else some (cur + 1)
      if next = last then some (prev, false)
      else lookupLoop seq last prev rest (cur + 1)

/-- The block, and whether it holds the sequence number. -/
def sackBlockSearch (seq : TcpSeq) : Option (Option ℕ × Bool) :=
  let tail := scb.sackblocks.length.ppred
  match scb.lastfound with
  | none => lookupLoop seq none tail scb.sackblocks 0
  | some hint =>
    match scb.sackblocks[hint]? with
    | none => none
    | some block =>
      if seqGeq seq block.sblkStart then
        lookupLoop seq none tail (scb.sackblocks.drop hint) hint
      else
        lookupLoop seq (some hint) hint.ppred scb.sackblocks 0

def sackBlockLookup (seq : TcpSeq) : Option (Scoreboard × Option ℕ × Bool) :=
  if scb.sackblocks = [] then some (scb, none, false)
  else
    (scb.sackBlockSearch seq).map fun found =>
      ({ scb with lastfound := found.1 }, found)

/-! ## Inserting a block -/

def allocSackblock (kmalloc : Bool) (raw : RawSackBlock) : Option (Scoreboard × SackBlock) :=
  if scb.freecache then
    some ({ scb with freecache := false }, ⟨raw.rblkStart, raw.rblkEnd⟩)
  else if kmalloc then some (scb, ⟨raw.rblkStart, raw.rblkEnd⟩)
  else none

def allocSackblockLimit (kmalloc : Bool) (raw : RawSackBlock) : Option (Scoreboard × SackBlock) :=
  if scb.nblocks = maxSavedBlocks then none
  else scb.allocSackblock kmalloc raw

end

/-- The loop of `insert_block` that removes the blocks behind place `i` that the
working block overlaps completely. -/
def removeOverlapped (scb : Scoreboard) (i : ℕ) : Scoreboard :=
  match scb.sackblocks[i]?, hnext : scb.sackblocks[i + 1]? with
  | some working, some sb =>
    if seqGeq working.sblkEnd sb.sblkEnd then
      removeOverlapped (scb.removeBlock (i + 1)) i
    else scb
  | _, _ => scb
termination_by scb.sackblocks.length
decreasing_by
  have hlt : i + 1 < scb.sackblocks.length := (List.getElem?_eq_some_iff.mp hnext).1
  simp only [removeBlock, List.length_eraseIdx, if_pos hlt]
  omega

/-- The working block takes in the one behind it if it overlaps that in part. -/
def mergePartial (scb : Scoreboard) (i : ℕ) : Scoreboard :=
  match scb.sackblocks[i]?, scb.sackblocks[i + 1]? with
  | some working, some sb =>
    if seqGeq working.sblkEnd sb.sblkStart then
      (scb.setEnd i sb.sblkEnd).removeBlock (i + 1)
    else scb
  | _, _ => scb

def consolidateRight (scb : Scoreboard) (i : ℕ) : Scoreboard :=
  (scb.removeOverlapped i).mergePartial i

/-- What `insert_block` leaves: the scoreboard, `*update`, and whether it fails
with `ENOMEM`. -/
structure Inserted where
  scb : Scoreboard
  update : Bool
  failed : Bool
  deriving DecidableEq

section

variable (scb : Scoreboard)

/-- Put a new block at place `i`, within the limit, and consolidate. -/
def insertNew (kmalloc : Bool) (raw : RawSackBlock) (i : ℕ) : Inserted :=
  match scb.allocSackblockLimit kmalloc raw with
  | none => ⟨scb, true, true⟩
  | some (scb', block) =>
    ⟨(scb'.insertAt i block).consolidateRight i, true, false⟩

def insertBlock (kmalloc : Bool) (raw : RawSackBlock) : Option Inserted :=
  if scb.sackblocks = [] then
    match scb.allocSackblock kmalloc raw with
    | none => some ⟨scb, true, true⟩
    | some (scb', block) =>
      some ⟨{ scb'.insertAt 0 block with nblocks := 1 }, true, false⟩
  else
    match scb.sackBlockLookup raw.rblkStart with
    | none => none
    | some (scb, none, _) => some (scb.insertNew kmalloc raw 0)
    | some (scb, some i, overlapFront) =>
      match scb.sackblocks[i]? with
      | none => none
      | some sb =>
        if overlapFront || sb.sblkEnd == raw.rblkStart then
          if seqGt raw.rblkEnd sb.sblkEnd then
            some ⟨(scb.setEnd i raw.rblkEnd).consolidateRight i, true, false⟩
          else some ⟨scb, false, false⟩
        else some (scb.insertNew kmalloc raw (i + 1))

def tcpSackCleanup : Scoreboard :=
  { scb with
    nblocks := scb.nblocks - scb.sackblocks.length
    sackblocks := []
    lastfound := none
    freecache := scb.freecache || !scb.sackblocks.isEmpty }

/-- The blocks from the last one backwards, until enough is known to have left the
network. -/
def lostseqLoop (rxtthresh rxtthreshBytes : BitVec 32) (sndUna : TcpSeq) :
    List SackBlock → BitVec 32 → BitVec 32 → TcpSeq
  | [], _, _ => sndUna
  | sb :: rest, nsackblocks, bytesSacked =>
    let nsackblocks := nsackblocks + 1
    let bytesSacked := bytesSacked + (sb.sblkEnd - sb.sblkStart)
    if nsackblocks = rxtthresh ∨ rxtthreshBytes.toInt ≤ bytesSacked.toInt then
      sb.sblkStart
    else lostseqLoop rxtthresh rxtthreshBytes sndUna rest nsackblocks bytesSacked

def tcpSackUpdateLostseq (env : SackEnv) (sndUna : TcpSeq)
    (maxseg rxtthresh : BitVec 32) : Scoreboard :=
  let rxtthreshBytes :=
    if env.tcpDoRfc6675 then (rxtthresh - 1) * maxseg else rxtthresh * maxseg
  { scb with
    lostseq :=
      lostseqLoop rxtthresh rxtthreshBytes sndUna scb.sackblocks.reverse 0 0 }

end

end Scoreboard

namespace SackTcpcb

variable (tp : SackTcpcb)

def tcpSackTcpcbInit : SackTcpcb :=
  { tp with
    scb := { tp.scb with nblocks := 0, sackblocks := [], lastfound := none } }

def tcpSackDiscard : SackTcpcb :=
  { tp with
    scb := { tp.scb.tcpSackCleanup with lostseq := tp.sndUna }
    rexmtHigh := tp.sndUna
    sackRescued := false }

/-- The loop of `tcp_sack_ack_blocks` over the blocks that are acknowledged. -/
def removeAcked (thAck : TcpSeq) (scb : Scoreboard) : Scoreboard :=
  match _hfirst : scb.sackblocks with
  | [] => scb
  | sb :: _ =>
    if seqLeq sb.sblkEnd thAck then removeAcked thAck (scb.removeBlock 0)
    else scb
termination_by scb.sackblocks.length
decreasing_by
  simp [Scoreboard.removeBlock, _hfirst]

def tcpSackAckBlocks (thAck : TcpSeq) : SackTcpcb :=
  let scb := removeAcked thAck tp.scb
  match scb.sackblocks with
  | [] => { tp with scb }
  | sb :: _ =>
    if seqGeq thAck sb.sblkStart then { tp with scb }.tcpSackDiscard
    else { tp with scb }

/-- 0 if there is no D-SACK block, 1 for a D-SACK block below `snd_una`, 2 for one
inside the second block. -/
def tcpSackNdsackBlocks (blocks : List RawSackBlock) (sndUna : TcpSeq) : ℕ :=
  match blocks with
  | [] => 0
  | first :: rest =>
    if seqLt first.rblkStart sndUna then 1
    else
      match rest with
      | [] => 0
      | second :: _ =>
        if seqGeq first.rblkStart second.rblkStart &&
            seqLeq first.rblkEnd second.rblkEnd then 2
        else 0

/-- The loop of `tcp_sack_add_blocks` from block `i` on.  The flag is
`TOF_SACK_REDUNDANT`. -/
def addBlocksLoop (env : SackEnv) (sndUna sndMax : TcpSeq) :
    List RawSackBlock → ℕ → Scoreboard → Bool → Option (Scoreboard × Bool)
  | [], _, scb, redundant => some (scb, redundant)
  | raw :: rest, i, scb, redundant =>
    if seqLeq raw.rblkStart sndUna then
      addBlocksLoop env sndUna sndMax rest (i + 1) scb redundant
    else if seqGt raw.rblkEnd sndMax then some (scb, redundant)
    else
      match scb.insertBlock (env.kmalloc i) raw with
      | none => none
      | some inserted =>
        let redundant := redundant && !inserted.update
        if inserted.failed then some (inserted.scb, redundant)
        else
          addBlocksLoop env sndUna sndMax rest (i + 1) inserted.scb redundant

def tcpSackAddBlocks (env : SackEnv) (blocks : List RawSackBlock) : Option (SackTcpcb × Bool) :=
  let startblock := if 0 < tcpSackNdsackBlocks blocks tp.sndUna then 1 else 0
  (addBlocksLoop env tp.sndUna tp.sndMax (blocks.drop startblock) startblock tp.scb true).map
    fun added => ({ tp with scb := added.1 }, added.2)

/-- The end of `tcp_sack_update_scoreboard`: HighRxt and RescueRxt are dragged
along with `snd_una`. -/
def updateRexmt (env : SackEnv) : SackTcpcb :=
  let rexmtHighUpdate := seqLt tp.rexmtHigh tp.sndUna
  let tp := if rexmtHighUpdate then { tp with rexmtHigh := tp.sndUna } else tp
  if tp.sackRescued then
    if seqLeq tp.rexmtRescue tp.sndUna then { tp with sackRescued := false }
    else if env.tcpAggressiveRescuesack && rexmtHighUpdate &&
        seqLt tp.rexmtRescue tp.rexmtHigh then
      { tp with rexmtRescue := tp.rexmtHigh }
    else tp
  else tp

def tcpSackUpdateScoreboard (env : SackEnv)
    (blocks : List RawSackBlock) : Option (SackTcpcb × Bool) :=
  match (tp.tcpSackAckBlocks tp.sndUna).tcpSackAddBlocks env blocks with
  | none => none
  | some (tp, redundant) =>
    let scb :=
      tp.scb.tcpSackUpdateLostseq env tp.sndUna tp.tMaxseg tp.tRxtthresh
    some ({ tp with scb }.updateRexmt env, redundant)

end SackTcpcb

/-- The blocks of a `TCPOPT_SACK` option that `tcp_dooptions` hands on: all, or
none if one of them is not longer than zero. -/
def tcpDooptionsSack (blocks : List RawSackBlock) : List RawSackBlock :=
  if blocks.any fun r => seqLeq r.rblkEnd r.rblkStart then [] else blocks

end DragonFly.Netinet
