import Mathlib

/-!
# TCP reassembly

Sequence numbers are 32-bit words and differences of them are read as signed.
A segment's length and the `int` fields of a queue entry are natural numbers, and
an mbuf chain is the list of its bytes.  Of the header only the sequence number
and `TH_FIN` matter here.
-/

namespace DragonFly.Netinet

abbrev TcpSeq := BitVec 32

structure Tcphdr where
  thSeq : TcpSeq
  fin : Bool
  deriving DecidableEq

structure TsegQent where
  tqeTh : Tcphdr
  tqeLen : ℕ
  tqeM : List UInt8
  deriving DecidableEq

structure RawSackBlock where
  rblkStart : TcpSeq
  rblkEnd : TcpSeq
  deriving DecidableEq

inductive TcpState where
  | terminating
  | closed
  | listen
  | synSent
  | synReceived
  | established
  | closeWait
  | finWait1
  | closing
  | lastAck
  | finWait2
  | timeWait
  deriving DecidableEq

def TcpState.haveEstablished : TcpState → Bool
  | .terminating | .closed | .listen | .synSent | .synReceived => false
  | _ => true

def TcpState.haveRcvdFin : TcpState → Bool
  | .timeWait => true
  | _ => false

/-- The SACK state of a connection that reassembly maintains: the two flags it
uses and the two blocks. -/
structure SackState where
  dupseg : Bool
  encloseseg : Bool
  reportblk : RawSackBlock
  encloseblk : RawSackBlock
  deriving DecidableEq

structure Tcpcb where
  tState : TcpState
  rcvNxt : TcpSeq
  tSegq : List TsegQent
  sawFin : Bool
  quedFin : Bool
  sack : SackState
  cantRcvMore : Bool
  soRcv : List UInt8
  deriving DecidableEq

/-- What a call finds outside the connection: the number of queue entries in the
system, its limit, and whether `kmalloc` finds memory. -/
structure ReassEnv where
  tcpReassQsize : ℕ
  tcpReassMaxseg : ℕ
  kmalloc : Bool
  deriving DecidableEq

def seqGt (a b : TcpSeq) : Bool :=
  0 < (a - b).toInt

def tcpSackBlkend (stop : TcpSeq) (fin : Bool) : TcpSeq :=
  if fin then stop + 1 else stop

/-- The first sequence number after a queue entry. -/
def TsegQent.stop (q : TsegQent) : TcpSeq :=
  q.tqeTh.thSeq + BitVec.ofNat 32 q.tqeLen

/-- The `TAILQ_FOREACH` of `tcp_reass`: the entries up to `p`, and those from
`q` on. -/
def findAfter (seq : TcpSeq) : List TsegQent → List TsegQent × List TsegQent
  | [] => ([], [])
  | q :: rest =>
    if seqGt q.tqeTh.thSeq seq then ([], q :: rest)
    else (q :: (findAfter seq rest).1, (findAfter seq rest).2)

variable (sack : SackState)

def SackState.noReport : SackState :=
  { sack with
    reportblk := { sack.reportblk with rblkStart := sack.reportblk.rblkEnd } }

/-- SACK state when a succeeding entry is overlapped. -/
def SackState.overlap (q : TsegQent) : SackState :=
  let first :=
    if sack.dupseg then sack
    else
      { dupseg := true
        encloseseg := true
        encloseblk := sack.reportblk
        reportblk := { sack.reportblk with rblkStart := q.tqeTh.thSeq } }
  let qendSack := tcpSackBlkend q.stop q.tqeTh.fin
  if first.encloseseg && seqGt qendSack first.encloseblk.rblkEnd then
    { first with encloseblk := { first.encloseblk with rblkEnd := qendSack } }
  else first

/-- The loop that trims or dequeues the entries from `q` on that the segment
overlaps. -/
def trimSucceeding (tlen : ℕ) :
    SackState → Tcphdr → List TsegQent → SackState × Tcphdr × List TsegQent
  | sack, th, [] => (sack, th, [])
  | sack, th, q :: rest =>
    let i := (th.thSeq + BitVec.ofNat 32 tlen - q.tqeTh.thSeq).toInt
    if i ≤ 0 then (sack, th, q :: rest)
    else if i < q.tqeLen then
      (sack.overlap q, th,
        { tqeTh := { q.tqeTh with
            thSeq := q.tqeTh.thSeq + BitVec.ofInt 32 i }
          tqeLen := q.tqeLen - i.toNat
          tqeM := q.tqeM.drop i.toNat } :: rest)
    else
      trimSucceeding tlen (sack.overlap q)
        { th with fin := th.fin || q.tqeTh.fin } rest

def coalesceFollowing (te : TsegQent) : List TsegQent → SackState × TsegQent × List TsegQent
  | [] => (sack, te, [])
  | q :: rest =>
    if te.stop = q.tqeTh.thSeq then
      let te' : TsegQent :=
        { tqeTh := { te.tqeTh with fin := te.tqeTh.fin || q.tqeTh.fin }
          tqeLen := te.tqeLen + q.tqeLen
          tqeM := te.tqeM ++ q.tqeM }
      let tendSack := tcpSackBlkend te'.stop te'.tqeTh.fin
      ({ sack with
          encloseblk := { sack.encloseblk with rblkEnd := tendSack }
          reportblk :=
            if sack.dupseg then sack.reportblk
            else { sack.reportblk with rblkEnd := tendSack } },
        te', rest)
    else (sack, te, q :: rest)

/-- Link the new entry behind the entries `before`, the last of which is `p`, or
coalesce it with `p`. -/
def linkEntry (before : List TsegQent) (te : TsegQent)
    (after : List TsegQent) : SackState × List TsegQent :=
  match before.getLast? with
  | none => (sack, te :: after)
  | some p =>
    if p.stop = te.tqeTh.thSeq then
      ({ sack with
          encloseblk :=
            { sack.encloseblk with rblkStart := p.tqeTh.thSeq }
          reportblk :=
            if sack.dupseg then sack.reportblk
            else { sack.reportblk with rblkStart := p.tqeTh.thSeq } },
        before.dropLast ++
          { tqeTh := { p.tqeTh with fin := p.tqeTh.fin || te.tqeTh.fin }
            tqeLen := p.tqeLen + te.tqeLen
            tqeM := p.tqeM ++ te.tqeM } :: after)
    else (sack, before ++ te :: after)

/-- The label `present` of `tcp_reass`. -/
def presentData (tp : Tcpcb) : Tcpcb × Bool :=
  if tp.tState.haveEstablished = false then (tp, false)
  else
    match tp.tSegq with
    | [] => (tp, false)
    | q :: rest =>
      if q.tqeTh.thSeq ≠ tp.rcvNxt then (tp, false)
      else
        let sack := if tp.sack.dupseg then tp.sack else tp.sack.noReport
        ({ tp with
            rcvNxt := tp.rcvNxt + BitVec.ofNat 32 q.tqeLen
            sack := { sack with encloseseg := false }
            tSegq := rest
            soRcv :=
              if tp.cantRcvMore then tp.soRcv else tp.soRcv ++ q.tqeM },
          q.tqeTh.fin)

/-- Queue the segment behind `before`, with `after` following. -/
def queueSegment (tp : Tcpcb) (before after : List TsegQent) (th : Tcphdr)
    (tlen : ℕ) (m : List UInt8) : Tcpcb :=
  let trimmed := trimSucceeding tlen tp.sack th after
  let te : TsegQent :=
    { tqeTh := trimmed.2.1, tqeLen := tlen, tqeM := m }
  let joined := coalesceFollowing trimmed.1 te trimmed.2.2
  let linked := linkEntry joined.1 before joined.2.1 joined.2.2
  { tp with sack := linked.1, tSegq := linked.2 }

/-- The preceding entry `p` overlaps the segment by `i` bytes. -/
def overlapPreceding (tp : Tcpcb) (before after : List TsegQent)
    (p : TsegQent) (i : ℤ) (th : Tcphdr) (tlen : ℕ) (m : List UInt8) : Tcpcb :=
  if (tlen : ℤ) ≤ i then
    let p' : TsegQent :=
      { p with tqeTh := { p.tqeTh with fin := p.tqeTh.fin || th.fin } }
    { tp with
      tSegq := before.dropLast ++ p' :: after
      sack := { tp.sack with
        dupseg := true
        encloseseg := true
        encloseblk :=
          { rblkStart := p.tqeTh.thSeq
            rblkEnd := tcpSackBlkend p'.stop p'.tqeTh.fin } } }
  else
    let th' := { th with thSeq := th.thSeq + BitVec.ofInt 32 i }
    let tlen' := tlen - i.toNat
    let sack :=
      { tp.sack with
        dupseg := true
        encloseseg := true
        encloseblk :=
          { rblkStart := p.tqeTh.thSeq
            rblkEnd := tcpSackBlkend
              (th'.thSeq + BitVec.ofNat 32 tlen') th'.fin }
        reportblk := { tp.sack.reportblk with rblkEnd := th'.thSeq } }
    queueSegment { tp with sack := sack } before after th' tlen' (m.drop i.toNat)

def mergeSegment (tp : Tcpcb) (th : Tcphdr) (tlen : ℕ) (m : List UInt8) : Tcpcb :=
  let before := (findAfter th.thSeq tp.tSegq).1
  let after := (findAfter th.thSeq tp.tSegq).2
  match before.getLast? with
  | none => queueSegment tp before after th tlen m
  | some p =>
    let i := (p.stop - th.thSeq).toInt
    if i > 0 then overlapPreceding tp before after p i th tlen m
    else queueSegment tp before after th tlen m

/-- `tcp_reass`; without a segment it only presents queued data.  The second
component is the `TH_FIN` it returns. -/
def tcpReass (env : ReassEnv) (tp : Tcpcb) : Option (Tcphdr × ℕ × List UInt8) → Tcpcb × Bool
  | none => presentData tp
  | some (th, tlen, m) =>
    if th.thSeq ≠ tp.rcvNxt ∧
        env.tcpReassQsize + 1 ≥ env.tcpReassMaxseg then
      ({ tp with sack := tp.sack.noReport }, false)
    else if env.kmalloc = false then
      ({ tp with sack := tp.sack.noReport }, false)
    else
      presentData (mergeSegment { tp with quedFin := tp.quedFin || th.fin } th tlen m)

/-- The segment text part of `tcp_input`, from `dodata` on.  The flags of the
header and the variable `thflags` may differ. -/
def tcpInputData (env : ReassEnv) (tp : Tcpcb) (th : Tcphdr) (thfin : Bool)
    (tlen : ℕ) (m : List UInt8) : Tcpcb × Bool :=
  if (tlen ≠ 0 ∨ thfin = true) ∧ tp.tState.haveRcvdFin = false then
    let tp := { tp with sawFin := tp.sawFin || thfin }
    if th.thSeq = tp.rcvNxt ∧ tp.tSegq = [] ∧
        tp.tState.haveEstablished = true then
      ({ tp with
          quedFin := tp.quedFin || thfin
          rcvNxt := tp.rcvNxt + BitVec.ofNat 32 tlen
          soRcv := if tp.cantRcvMore then tp.soRcv else tp.soRcv ++ m },
        th.fin)
    else
      let sack :=
        if tp.sack.dupseg then tp.sack
        else
          { tp.sack with
            reportblk :=
              { rblkStart := th.thSeq
                rblkEnd := tcpSackBlkend
                  (th.thSeq + BitVec.ofNat 32 tlen) thfin } }
      tcpReass env { tp with sack := sack } (some (th, tlen, m))
  else (tp, false)

end DragonFly.Netinet
