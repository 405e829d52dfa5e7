import DragonFly.EventSystem

/-!
# The IPI message queues of lwkt_ipiq.c

Every cpu owns one FIFO of `MAXCPUFIFO` entries towards every other cpu, and one
FIFO towards itself for cpu synchronizations that are still being polled.  A cpu
runs a stack of calls: a message function may send, a send may find its FIFO full
and process incoming messages, and these run further functions on top of it.

The frames below are the points of the C functions at which memory shared between
cpus is read or written.  One event lets one cpu take one such step.  A FIFO keeps
its 32-bit indices as the code has them.  Beside them it records all messages that
were queued and all that were started, which nothing in the code reads.
-/

namespace DragonFly
namespace Ipiq

open Function

def maxCpuFifo : ℕ := 32

/-- The address of a `struct lwkt_cpusync`: the cpu that masters the
synchronization and which one of its synchronizations it is. -/
structure CsPtr (n : ℕ) where
  master : Fin n
  serial : ℕ
deriving DecidableEq

inductive Msg (n : ℕ) (F : Type)
  | call (f : F)
  | remote1 (p : CsPtr n)
  | remote2 (p : CsPtr n)
deriving DecidableEq

/-- `lwkt_send_ipiq3`, `lwkt_send_ipiq3_passive` and `lwkt_send_ipiq3_nowait`. -/
inductive SendKind
  | norm
  | passive
  | nowait
deriving DecidableEq

structure Req (n : ℕ) (F : Type) where
  kind : SendKind
  target : Fin n
  msg : Msg n F
deriving DecidableEq

structure Entry (n : ℕ) (F : Type) where
  msg : Msg n F
  kind : SendKind
deriving DecidableEq

/-- `struct lwkt_ipiq`, with the histories of its messages. -/
structure Fifo (n : ℕ) (F : Type) where
  info : ℕ → Option (Msg n F)
  windex : BitVec 32
  rindex : BitVec 32
  xindex : BitVec 32
  queued : List (Entry n F)
  started : List (Msg n F)
  finished : Finset ℕ

namespace Fifo

variable {n : ℕ} {F : Type} (q : Fifo n F)

/-- `ip_windex - ip_rindex`, a signed difference of 32 bits. -/
def fill : ℤ :=
  (q.windex - q.rindex).toInt

def slot (index : BitVec 32) : ℕ :=
  index.toNat % maxCpuFifo

/-- The messages behind as many as have been started: those not started, while
messages are started in the order they were queued in. -/
def unstarted : List (Entry n F) :=
  q.queued.drop q.started.length

def write (m : Msg n F) : Fifo n F :=
  { q with info := update q.info (slot q.windex) (some m) }

def bump (entry : Entry n F) : Fifo n F :=
  { q with windex := q.windex + 1, queued := q.queued ++ [entry] }

def take (m : Msg n F) : Fifo n F :=
  { q with rindex := q.rindex + 1, started := q.started ++ [m] }

def complete (position : ℕ) : Fifo n F :=
  { q with xindex := q.rindex, finished := insert position q.finished }

def empty : Fifo n F where
  info _ := none
  windex := 0
  rindex := 0
  xindex := 0
  queued := []
  started := []
  finished := ∅

end Fifo

/-- `struct lwkt_cpusync`, with the number of times each cpu has called its
function and how far its master is: 0 until the interlock has returned, 1 until the
deinterlock has returned, then 2. -/
structure Cs (n : ℕ) (F : Type) where
  mask : Finset (Fin n)
  mack : Finset (Fin n)
  func : Option F
  ran : Fin n → ℕ
  stage : ℕ

/-- Points of the three send functions. -/
inductive SendPc
  | start
  | test
  | poll
  | pollIpi
  | drain
  | write
  | bump
  | mark (position : ℕ)
  | signal (position : ℕ)
  | signalIpi (position : ℕ)
  | leave (position : ℕ)
deriving DecidableEq

/-- Points of `lwkt_process_ipiq` and `lwkt_process_ipiq_frame`. -/
inductive ProcessPc (n : ℕ)
  | read
  | clear (mask : Finset (Fin n))
  | scan (mask : Finset (Fin n))
  | fifo (mask : Finset (Fin n)) (source : Fin n)
  | sync
  | syncing
  | recheck
  | release
  | recheckAfter
deriving DecidableEq

/-- Points of `lwkt_process_ipiq_core`. -/
inductive CorePc (n : ℕ) (F : Type)
  | enter
  | test
  | taken (m : Msg n F)
  | running (position : ℕ)
  | exit
deriving DecidableEq

/-- Points of `lwkt_cpusync_remote1` and `lwkt_cpusync_remote2`. -/
inductive RemotePc
  | ack
  | poll
  | func
  | reack
  | requeue
deriving DecidableEq

inductive InterlockPc (n : ℕ)
  | begin
  | count
  | sending (mask : Finset (Fin n))
  | waiting
deriving DecidableEq

inductive DeinterlockPc (n : ℕ)
  | take
  | zero (mask : Finset (Fin n))
  | own (mask : Finset (Fin n))
  | test (mask : Finset (Fin n))
  | last
  | done
deriving DecidableEq

/-- A call on the stack of a cpu.  A frame below the top one stands where it
continues when the call above it returns.  The pass over a FIFO keeps, beside the
write index it has cached, the number of messages that had been queued then. -/
inductive Frame (n : ℕ) (F : Type)
  | send (r : Req n F) (pc : SendPc)
  | process (frame : Bool) (pc : ProcessPc n)
  | core (source : Option (Fin n)) (wi : BitVec 32) (snap : ℕ) (pc : CorePc n F)
  | function (f : F) (sent : ℕ)
  | remote (p : CsPtr n) (pc : RemotePc)
  | interlock (p : CsPtr n) (pc : InterlockPc n)
  | held (p : CsPtr n)
  | deinterlock (p : CsPtr n) (pc : DeinterlockPc n)
  | wait (target : Fin n) (seq : BitVec 32) (position : ℕ) (returned : Bool)
deriving DecidableEq

/-- What a send has returned: the sequence number and, beside it, the place of the
message among all messages queued from this cpu to the target. -/
structure Ticket (n : ℕ) where
  target : Fin n
  seq : BitVec 32
  position : ℕ
deriving DecidableEq

structure Cpu (n : ℕ) (F : Type) where
  frames : List (Frame n F)
  ipimask : Finset (Fin n)
  npoll : Bool
  /-- A hardware IPI has been sent to the cpu and has not been serviced. -/
  ipi : Bool
  cscount : ℕ
  tickets : List (Ticket n)
  serial : ℕ

/-- The FIFO `fifo d (some a)` carries messages from cpu `a` to cpu `d`, and
`fifo d none` is `gd_cpusyncq` of cpu `d`. -/
structure State (n : ℕ) (F : Type) where
  cpu : Fin n → Cpu n F
  fifo : Fin n → Option (Fin n) → Fifo n F
  cs : CsPtr n → Cs n F
  panicked : Bool

variable {n : ℕ} {F : Type}

def lowest (mask : Finset (Fin n)) : Option (Fin n) :=
  (List.finRange n).find? (· ∈ mask)

/-- The call that an entry of a FIFO makes. -/
def Msg.frame : Msg n F → Frame n F
  | .call f => .function f 0
  | .remote1 p => .remote p .ack
  | .remote2 p => .remote p .poll

/-- What a step does to the stack of its cpu. -/
inductive Outcome (n : ℕ) (F : Type)
  | goto (frame : Frame n F)
  | call (caller callee : Frame n F)
  | ret
  | give (more : Bool)

/-- What a step does to memory. -/
inductive Effect (n : ℕ) (F : Type)
  | nothing
  | panic
  | write (d : Fin n) (source : Option (Fin n)) (m : Msg n F)
  | bump (d : Fin n) (source : Option (Fin n)) (entry : Entry n F)
  | take (d : Fin n) (source : Option (Fin n)) (m : Msg n F)
  | complete (d : Fin n) (source : Option (Fin n)) (position : ℕ)
  | mark (target source : Fin n)
  | clear (target : Fin n) (mask : Finset (Fin n))
  | acquire (target : Fin n)
  | release (target : Fin n)
  | ipi (target : Fin n)
  | service (target : Fin n)
  | ticket (c : Fin n) (ticket : Ticket n)
  | requeue (d : Fin n) (p : CsPtr n)
  | cscount (c : Fin n) (count : ℕ)
  | initCs (p : CsPtr n) (mask : Finset (Fin n)) (func : Option F)
  | ack (p : CsPtr n) (c : Fin n)
  | zero (p : CsPtr n)
  | ran (p : CsPtr n) (c : Fin n)
  | locked (p : CsPtr n)
  | closed (p : CsPtr n)

/-- What lets a cpu take its next step: the code itself, or a choice of the
thread or message function that runs on it. -/
inductive Input (n : ℕ) (F : Type)
  | run
  | request (kind : SendKind) (target : Fin n) (f : F)
  | wait (ticket : Ticket n)
  | finish
  | process
  | service
  | interlock (mask : Finset (Fin n)) (func : Option F)
  | deinterlock

namespace State

variable (s : State n F) (c : Fin n)

def setCpu (cpu : Cpu n F) : State n F :=
  { s with cpu := update s.cpu c cpu }

def setFrames (frames : List (Frame n F)) : State n F :=
  s.setCpu c { s.cpu c with frames := frames }

def setFifo (d : Fin n) (source : Option (Fin n)) (q : Fifo n F) : State n F :=
  { s with fifo := update s.fifo d (update (s.fifo d) source q) }

variable (p : CsPtr n)

def setCs (cs : Cs n F) : State n F :=
  { s with cs := update s.cs p cs }

def apply : Effect n F → State n F
  | .nothing => s
  | .panic => { s with panicked := true }
  | .write d source m => s.setFifo d source ((s.fifo d source).write m)
  | .bump d source entry => s.setFifo d source ((s.fifo d source).bump entry)
  | .take d source m => s.setFifo d source ((s.fifo d source).take m)
  | .complete d source position =>
    s.setFifo d source ((s.fifo d source).complete position)
  | .mark target source =>
    s.setCpu target
      { s.cpu target with ipimask := insert source (s.cpu target).ipimask }
  | .clear target mask =>
    s.setCpu target
      { s.cpu target with ipimask := (s.cpu target).ipimask \ mask }
  | .acquire target => s.setCpu target { s.cpu target with npoll := true }
  | .release target => s.setCpu target { s.cpu target with npoll := false }
  | .ipi target => s.setCpu target { s.cpu target with ipi := true }
  | .service target => s.setCpu target { s.cpu target with ipi := false }
  | .ticket c ticket =>
    s.setCpu c { s.cpu c with tickets := ticket :: (s.cpu c).tickets }
  | .requeue d p =>
    s.setFifo d none (((s.fifo d none).write (.remote2 p)).bump ⟨.remote2 p, .norm⟩)
  | .cscount c count => s.setCpu c { s.cpu c with cscount := count }
  | .initCs p mask func => s.setCs p ⟨mask, (s.cs p).mack, func, fun _ => 0, 0⟩
  | .ack p c => s.setCs p { s.cs p with mack := insert c (s.cs p).mack }
  | .zero p => s.setCs p { s.cs p with mack := ∅ }
  | .ran p c =>
    s.setCs p
      { s.cs p with
        ran := update (s.cs p).ran c ((s.cs p).ran c + 1) }
  | .locked p => s.setCs p { s.cs p with stage := 1 }
  | .closed p =>
    (s.setCs p { s.cs p with stage := 2 }).setCpu p.master
      { s.cpu p.master with serial := (s.cpu p.master).serial + 1 }

/-- The three send functions on cpu `c`.  A send to the cpu itself is a call. -/
def sendStep (r : Req n F) : SendPc → Outcome n F × Effect n F
  | .start =>
    if r.target = c then
      if r.kind = .passive then (.ret, .panic)
      else (.goto r.msg.frame, .nothing)
    else if r.kind = .nowait then
      if (s.fifo r.target (some c)).fill ≥ maxCpuFifo * 2 / 3 then (.ret, .nothing)
      else (.goto (.send r .write), .nothing)
    else if (s.fifo r.target (some c)).fill > maxCpuFifo / 2 then
      (.goto (.send r .test), .nothing)
    else (.goto (.send r .write), .nothing)
  | .test =>
    if (s.fifo r.target (some c)).fill > maxCpuFifo / 4 then
      (.goto (.send r .poll), .nothing)
    else (.goto (.send r .write), .nothing)
  | .poll =>
    if (s.cpu r.target).npoll then (.goto (.send r .drain), .nothing)
    else (.goto (.send r .pollIpi), .acquire r.target)
  | .pollIpi => (.goto (.send r .drain), .ipi r.target)
  | .drain =>
    if (s.fifo r.target (some c)).fill = maxCpuFifo - 1 then
      (.goto (.send r .drain), .panic)
    else (.call (.send r .test) (.process false .read), .nothing)
  | .write => (.goto (.send r .bump), .write r.target (some c) r.msg)
  | .bump =>
    (.goto (.send r (.mark (s.fifo r.target (some c)).queued.length)),
      .bump r.target (some c) ⟨r.msg, r.kind⟩)
  | .mark position =>
    (.goto (.send r
        (if r.kind = .passive then .leave position else .signal position)),
      .mark r.target c)
  | .signal position =>
    if (s.cpu r.target).npoll then (.goto (.send r (.leave position)), .nothing)
    else (.goto (.send r (.signalIpi position)), .acquire r.target)
  | .signalIpi position => (.goto (.send r (.leave position)), .ipi r.target)
  -- The code reads the index after `crit_exit`.  An interrupt in between can only
  -- make it larger, and a wait for it longer.
  | .leave position =>
    (.ret, if r.kind = .nowait then .nothing
      else .ticket c ⟨r.target, (s.fifo r.target (some c)).windex, position⟩)

/-- `lwkt_process_ipiq`, or `lwkt_process_ipiq_frame` when `frame` is set.  A FIFO
that is not empty after a pass stays in the mask and is scanned again. -/
def processStep (frame : Bool) : ProcessPc n → Option (Outcome n F × Effect n F)
  | .read => some (.goto (.process frame (.clear (s.cpu c).ipimask)), .nothing)
  | .clear mask => some (.goto (.process frame (.scan mask)), .clear c mask)
  | .scan mask =>
    match lowest mask with
    | none => some (.goto (.process frame .sync), .nothing)
    | some a =>
      if a = c then
        some (.goto (.process frame (.scan (mask.erase a))), .nothing)
      else
        some (.call (.process frame (.fifo mask a)) (.core (some a) 0 0 .enter), .nothing)
  | .sync =>
    if frame = true ∧ (s.fifo c none).rindex = (s.fifo c none).windex then
      some (.goto (.process frame .recheck), .nothing)
    else
      some (.call (.process frame .syncing) (.core none 0 0 .enter), .nothing)
  | .recheck =>
    if (s.cpu c).ipimask = ∅ then some (.goto (.process frame .release), .nothing)
    else some (.goto (.process frame .read), .nothing)
  | .release => some (.goto (.process frame .recheckAfter), .release c)
  | .recheckAfter =>
    if (s.cpu c).ipimask = ∅ then some (.ret, .nothing)
    else some (.goto (.process frame .read), .nothing)
  -- These two wait for the pass above them, which resumes them with its result.
  | .fifo _ _ => none
  | .syncing => none

/-- `lwkt_process_ipiq_core` on the FIFO from `source`. -/
def coreStep (source : Option (Fin n))
    (wi : BitVec 32) (snap : ℕ) : CorePc n F → Outcome n F × Effect n F
  | .enter =>
    (.goto (.core source (s.fifo c source).windex
      (s.fifo c source).queued.length .test), .nothing)
  | .test =>
    if (wi - (s.fifo c source).rindex).toInt > 0 then
      match (s.fifo c source).info (Fifo.slot (s.fifo c source).rindex) with
      | none => (.goto (.core source wi snap .test), .panic)
      | some m => (.goto (.core source wi snap (.taken m)), .nothing)
    else (.goto (.core source wi snap .exit), .nothing)
  | .taken m =>
    (.call (.core source wi snap (.running (s.fifo c source).started.length))
      m.frame, .take c source m)
  | .running position =>
    (.goto (.core source wi snap .test), .complete c source position)
  | .exit =>
    (.give (decide ((s.fifo c source).rindex ≠ (s.fifo c source).windex)), .nothing)

/-- `lwkt_cpusync_remote1`, which goes on as `lwkt_cpusync_remote2`. -/
def remoteStep : RemotePc → Outcome n F × Effect n F
  | .ack => (.goto (.remote p .poll), .ack p c)
  | .poll =>
    if c ∈ (s.cs p).mack then (.goto (.remote p .requeue), .nothing)
    else (.goto (.remote p .func), .nothing)
  | .func =>
    match (s.cs p).func with
    | none => (.goto (.remote p .reack), .nothing)
    | some f => (.call (.remote p .reack) (.function f 0), .ran p c)
  | .reack => (.ret, .ack p c)
  | .requeue =>
    if (s.fifo c none).fill < maxCpuFifo then (.ret, .requeue c p)
    else (.ret, .panic)

def interlockStep : InterlockPc n → Outcome n F × Effect n F
  | .begin => (.goto (.interlock p .count), .zero p)
  | .count =>
    if (s.cs p).mask.erase c = ∅ then (.goto (.held p), .locked p)
    else
      (.goto (.interlock p (.sending ((s.cs p).mask.erase c))), .cscount c ((s.cpu c).cscount + 1))
  | .sending mask =>
    match lowest mask with
    | none => (.goto (.interlock p .waiting), .nothing)
    | some target =>
      (.call (.interlock p (.sending (mask.erase target)))
        (.send ⟨.norm, target, .remote1 p⟩ .start), .nothing)
  | .waiting =>
    if (s.cs p).mack = (s.cs p).mask.erase c then (.goto (.held p), .locked p)
    else (.call (.interlock p .waiting) (.process false .read), .nothing)

def deinterlockStep : DeinterlockPc n → Outcome n F × Effect n F
  | .take => (.goto (.deinterlock p (.zero (s.cs p).mack)), .nothing)
  | .zero mask => (.goto (.deinterlock p (.own mask)), .zero p)
  | .own mask =>
    match (s.cs p).func with
    | none => (.goto (.deinterlock p (.test mask)), .nothing)
    | some f =>
      if c ∈ (s.cs p).mask then
        (.call (.deinterlock p (.test mask)) (.function f 0), .ran p c)
      else (.goto (.deinterlock p (.test mask)), .nothing)
  | .test mask =>
    if mask = ∅ then (.goto (.deinterlock p .done), .nothing)
    else if (s.cs p).mack = mask then (.goto (.deinterlock p .last), .nothing)
    else (.call (.deinterlock p (.test mask)) (.process false .read), .nothing)
  | .last =>
    (.call (.deinterlock p .done) (.process false .read), .cscount c ((s.cpu c).cscount - 1))
  | .done => (.ret, .closed p)

def waitStep (target : Fin n) (seq : BitVec 32) (position : ℕ) : Bool → Outcome n F × Effect n F
  | true => (.ret, .nothing)
  | false =>
    if target ≠ c ∧ ((s.fifo target (some c)).xindex - seq).toInt < 0 then
      (.call (.wait target seq position false) (.process false .read), .nothing)
    else (.goto (.wait target seq position true), .nothing)

/-- The next step of the code whose frame is on top.  A message function and a
thread that holds an interlock only move by their own choice. -/
def codeStep : Frame n F → Option (Outcome n F × Effect n F)
  | .send r pc => some (s.sendStep c r pc)
  | .process frame pc => s.processStep c frame pc
  | .core source wi snap pc => some (s.coreStep c source wi snap pc)
  | .function _ _ => none
  | .remote p pc => some (s.remoteStep c p pc)
  | .interlock p pc => some (s.interlockStep c p pc)
  | .held _ => none
  | .deinterlock p pc => some (s.deinterlockStep c p pc)
  | .wait target seq position returned =>
    some (s.waitStep c target seq position returned)

/-- Where a processing function goes on when a pass over a FIFO returns. -/
def resume (more : Bool) : Frame n F → Frame n F
  | .process frame (.fifo mask source) =>
    .process frame (.scan (if more then mask else mask.erase source))
  | .process frame .syncing =>
    .process frame (if more = true ∧ (s.cpu c).cscount = 0 then .read else .recheck)
  | frame => frame

def proceed (below : List (Frame n F)) : Outcome n F → List (Frame n F)
  | .goto frame => frame :: below
  | .call caller callee => callee :: caller :: below
  | .ret => below
  | .give more => below.modifyHead (s.resume c more)

/-- What a thread or a message function may choose to do when its frame is on
top.  An empty stack is a thread outside of critical sections. -/
def choose : List (Frame n F) → Input n F → Option (List (Frame n F) × Effect n F)
  | .function f sent :: below, .request kind target g =>
    some (.send ⟨kind, target, .call g⟩ .start :: .function f (sent + 1) :: below, .nothing)
  | .function f sent :: below, .wait ticket =>
    if ticket ∈ (s.cpu c).tickets then
      some (.wait ticket.target ticket.seq ticket.position false ::
        .function f sent :: below, .nothing)
    else none
  | .function _ _ :: below, .finish => some (below, .nothing)
  | .held p :: below, .request kind target g =>
    some (.send ⟨kind, target, .call g⟩ .start :: .held p :: below, .nothing)
  | .held p :: below, .wait ticket =>
    if ticket ∈ (s.cpu c).tickets then
      some (.wait ticket.target ticket.seq ticket.position false :: .held p :: below, .nothing)
    else none
  | .held p :: below, .deinterlock => some (.deinterlock p .take :: below, .nothing)
  | [], .request kind target g => some ([.send ⟨kind, target, .call g⟩ .start], .nothing)
  | [], .wait ticket =>
    if ticket ∈ (s.cpu c).tickets then
      some ([.wait ticket.target ticket.seq ticket.position false], .nothing)
    else none
  | [], .process => some ([.process false .read], .nothing)
  | [], .service =>
    if (s.cpu c).ipi then some ([.process true .read], .service c) else none
  | [], .interlock mask func =>
    some ([.interlock ⟨c, (s.cpu c).serial⟩ .begin], .initCs ⟨c, (s.cpu c).serial⟩ mask func)
  | _, _ => none

def stepFrames : Input n F → Option (List (Frame n F) × Effect n F)
  | .run =>
    match (s.cpu c).frames with
    | [] => none
    | frame :: below =>
      (s.codeStep c frame).map fun (outcome, effect) =>
        (s.proceed c below outcome, effect)
  | input => s.choose c (s.cpu c).frames input

def next (event : Fin n × Input n F) : Option (State n F) :=
  if s.panicked then none
  else
    (s.stepFrames event.1 event.2).map fun (frames, effect) =>
      (s.setFrames event.1 frames).apply effect

def initial : State n F where
  cpu _ := ⟨[], ∅, false, false, 0, [], 0⟩
  fifo _ _ := Fifo.empty
  cs _ := ⟨∅, ∅, none, fun _ => 0, 2⟩
  panicked := false

end State

/-- The states of a system of IPI queues that starts with empty FIFOs and whose
events all meet a condition. -/
abbrev Runs (allow : State n F → Fin n × Input n F → Prop) (s : State n F) : Prop :=
  Reachable (fun start => start = State.initial) allow State.next s

end Ipiq
end DragonFly
