import DragonFly.IpiqModel

/-!
# Steps and call stacks of the IPI queues

A step replaces the stack of its own cpu and has one effect on memory.  A frame
below the top of a stack stands at the call that the frame above it makes, which
says at which points the code can be entered again.
-/

namespace DragonFly
namespace Ipiq

open Function List

variable {n : ℕ} {F : Type}

/-- What an effect leaves of a FIFO. -/
def Effect.onFifo (d : Fin n) (source : Option (Fin n)) (q : Fifo n F) : Effect n F → Fifo n F
  | .write d' source' m => if d = d' ∧ source = source' then q.write m else q
  | .bump d' source' entry => if d = d' ∧ source = source' then q.bump entry else q
  | .take d' source' m => if d = d' ∧ source = source' then q.take m else q
  | .complete d' source' position =>
    if d = d' ∧ source = source' then q.complete position else q
  | .requeue d' p =>
    if d = d' ∧ source = none then
      (q.write (.remote2 p)).bump ⟨.remote2 p, .norm⟩
    else q
  | _ => q

def Effect.onMask (x : Fin n) (mask : Finset (Fin n)) : Effect n F → Finset (Fin n)
  | .mark target source => if x = target then insert source mask else mask
  | .clear target cleared => if x = target then mask \ cleared else mask
  | _ => mask

def Effect.onNpoll (x : Fin n) (npoll : Bool) : Effect n F → Bool
  | .acquire target => if x = target then true else npoll
  | .release target => if x = target then false else npoll
  | _ => npoll

def Effect.onIpi (x : Fin n) (ipi : Bool) : Effect n F → Bool
  | .ipi target => if x = target then true else ipi
  | .service target => if x = target then false else ipi
  | _ => ipi

variable {e : Effect n F} {s' : State n F} {c : Fin n} {input : Input n F} {frame : Frame n F}
  {outcome : Outcome n F} {before : List (Frame n F)} {source : Option (Fin n)}
  {wi : BitVec 32} {snap : ℕ}

namespace State

variable (s : State n F)

@[simp] theorem setFrames_fifo (c : Fin n) (frames : List (Frame n F)) :
    (s.setFrames c frames).fifo = s.fifo := rfl

@[simp] theorem setFrames_panicked (c : Fin n) (frames : List (Frame n F)) :
    (s.setFrames c frames).panicked = s.panicked := rfl

section

variable (c x : Fin n) (frames : List (Frame n F))

theorem setFrames_cpu :
    (s.setFrames c frames).cpu x =
      if x = c then { s.cpu c with frames := frames } else s.cpu x := by
  simp only [setFrames, setCpu, update_apply]

@[simp] theorem setFrames_frames :
    ((s.setFrames c frames).cpu x).frames = if x = c then frames else (s.cpu x).frames := by
  rw [setFrames_cpu]
  split_ifs <;> rfl

@[simp] theorem setFrames_ipimask : ((s.setFrames c frames).cpu x).ipimask = (s.cpu x).ipimask := by
  rw [setFrames_cpu]
  split_ifs with h
  · rw [h]
  · rfl

@[simp] theorem setFrames_npoll : ((s.setFrames c frames).cpu x).npoll = (s.cpu x).npoll := by
  rw [setFrames_cpu]
  split_ifs with h
  · rw [h]
  · rfl

@[simp] theorem setFrames_ipi : ((s.setFrames c frames).cpu x).ipi = (s.cpu x).ipi := by
  rw [setFrames_cpu]
  split_ifs with h
  · rw [h]
  · rfl

end

theorem setFifo_fifo (d x : Fin n) (source y : Option (Fin n)) (q : Fifo n F) :
    (s.setFifo d source q).fifo x y = if x = d ∧ y = source then q else s.fifo x y := by
  simp only [setFifo, update_apply]
  by_cases hx : x = d
  · subst hx
    by_cases hy : y = source
    · simp [hy]
    · simp [hy]
  · simp [hx]

section

variable (e : Effect n F)

theorem apply_fifo (d : Fin n) (source : Option (Fin n)) :
    (s.apply e).fifo d source = e.onFifo d source (s.fifo d source) := by
  cases e <;> simp only [apply, Effect.onFifo] <;> try rfl
  all_goals
    rw [setFifo_fifo]
    split_ifs with h
    · rw [h.1, h.2]
    · rfl

@[simp] theorem apply_frames (x : Fin n) : ((s.apply e).cpu x).frames = (s.cpu x).frames := by
  cases e <;> simp only [apply, setCpu, setFifo, setCs, update_apply] <;>
    try rfl
  all_goals
    split_ifs with h
    · rw [h]
    · rfl

theorem apply_ipimask (x : Fin n) : ((s.apply e).cpu x).ipimask = e.onMask x (s.cpu x).ipimask := by
  cases e <;>
    simp only [apply, setCpu, setFifo, setCs, update_apply, Effect.onMask] <;> try rfl
  all_goals
    split_ifs with h
    · rw [h]
    · rfl

theorem apply_npoll (x : Fin n) : ((s.apply e).cpu x).npoll = e.onNpoll x (s.cpu x).npoll := by
  cases e <;>
    simp only [apply, setCpu, setFifo, setCs, update_apply, Effect.onNpoll] <;> try rfl
  all_goals
    split_ifs with h
    · first
        | rfl
        | rw [h]
    · rfl

theorem apply_ipi (x : Fin n) : ((s.apply e).cpu x).ipi = e.onIpi x (s.cpu x).ipi := by
  cases e <;>
    simp only [apply, setCpu, setFifo, setCs, update_apply, Effect.onIpi] <;> try rfl
  all_goals
    split_ifs with h
    · first
        | rfl
        | rw [h]
    · rfl

end

theorem apply_panicked (he : e ≠ .panic) : (s.apply e).panicked = s.panicked := by
  cases e <;> first
    | rfl
    | exact absurd rfl he

theorem next_eq_some {s : State n F} (h : s.next (c, input) = some s') :
    s.panicked = false ∧ ∃ frames e, s.stepFrames c input = some (frames, e) ∧
        s' = (s.setFrames c frames).apply e := by
  rw [next] at h
  split_ifs at h with hp
  rw [Option.map_eq_some_iff] at h
  obtain ⟨⟨frames, e⟩, hstep, rfl⟩ := h
  exact ⟨by simpa using hp, frames, e, hstep, rfl⟩

theorem stepFrames_run
    {s : State n F} {b : List (Frame n F)} (hframes : (s.cpu c).frames = frame :: b)
    (hcode : s.codeStep c frame = some (outcome, e)) :
    s.stepFrames c .run = some (s.proceed c b outcome, e) := by
  rw [stepFrames, hframes]
  change Option.map _ (s.codeStep c frame) = _
  rw [hcode]
  rfl

theorem stepFrames_choose
    {s : State n F} (hframes : (s.cpu c).frames = before) (hinput : input ≠ .run) :
    s.stepFrames c input = s.choose c before input := by
  cases input with
  | run => exact absurd rfl hinput
  | _ =>
    rw [← hframes]
    rfl

theorem coreStep_more
    {s : State n F} {m : Msg n F} (hmore : 0 < (wi - (s.fifo c source).rindex).toInt)
    (hslot : (s.fifo c source).info
      (Fifo.slot (s.fifo c source).rindex) = some m) :
    s.coreStep c source wi snap .test = (.goto (.core source wi snap (.taken m)), .nothing) := by
  rw [coreStep, if_pos hmore, hslot]

theorem coreStep_done {s : State n F} (hdone : (wi - (s.fifo c source).rindex).toInt ≤ 0) :
    s.coreStep c source wi snap .test = (.goto (.core source wi snap .exit), .nothing) := by
  rw [coreStep, if_neg (not_lt.mpr hdone)]

theorem next_of_stepFrames {s : State n F} {frames : List (Frame n F)} (hp : s.panicked = false)
    (hstep : s.stepFrames c input = some (frames, e)) :
    s.next (c, input) = some ((s.setFrames c frames).apply e) := by
  rw [next, hp]
  change Option.map _ (s.stepFrames c input) = _
  rw [hstep]
  rfl

end State

/-- Everything that a step of cpu `c` can do: the stack before it, the stack after
it, and its effect. -/
inductive Move (s : State n F) (c : Fin n) :
    List (Frame n F) → List (Frame n F) → Effect n F → Prop
  -- the three send functions
  | sendSelf {r b} (hself : r.target = c) (hkind : r.kind ≠ .passive) :
      Move s c (.send r .start :: b) (r.msg.frame :: b) .nothing
  | sendSelfPassive {r b} (hself : r.target = c) :
      Move s c (.send r .start :: b) b .panic
  | sendRefused {r b} (hother : r.target ≠ c) (hkind : r.kind = .nowait) :
      Move s c (.send r .start :: b) b .nothing
  | sendNowait {r b} (hother : r.target ≠ c) (hkind : r.kind = .nowait)
      (hroom : (s.fifo r.target (some c)).fill < 21) :
      Move s c (.send r .start :: b) (.send r .write :: b) .nothing
  | sendFull {r b} (hother : r.target ≠ c) (hkind : r.kind ≠ .nowait)
      (hfull : 16 < (s.fifo r.target (some c)).fill) :
      Move s c (.send r .start :: b) (.send r .test :: b) .nothing
  | sendRoom {r b} (hother : r.target ≠ c) (hkind : r.kind ≠ .nowait)
      (hroom : (s.fifo r.target (some c)).fill ≤ 16) :
      Move s c (.send r .start :: b) (.send r .write :: b) .nothing
  | loopFull {r b} (hfull : 8 < (s.fifo r.target (some c)).fill) :
      Move s c (.send r .test :: b) (.send r .poll :: b) .nothing
  | loopRoom {r b} (hroom : (s.fifo r.target (some c)).fill ≤ 8) :
      Move s c (.send r .test :: b) (.send r .write :: b) .nothing
  | pollBusy {r b} (hbusy : (s.cpu r.target).npoll = true) :
      Move s c (.send r .poll :: b) (.send r .drain :: b) .nothing
  | pollFree {r b} (hfree : (s.cpu r.target).npoll = false) :
      Move s c (.send r .poll :: b) (.send r .pollIpi :: b) (.acquire r.target)
  | pollIpi {r b} :
      Move s c (.send r .pollIpi :: b) (.send r .drain :: b) (.ipi r.target)
  | drainPanic {r b} (hfill : (s.fifo r.target (some c)).fill = 31) :
      Move s c (.send r .drain :: b) (.send r .drain :: b) .panic
  | drain {r b} :
      Move s c (.send r .drain :: b) (.process false .read :: .send r .test :: b) .nothing
  | write {r b} :
      Move s c (.send r .write :: b) (.send r .bump :: b) (.write r.target (some c) r.msg)
  | bump {r b} :
      Move s c (.send r .bump :: b) (.send r (.mark (s.fifo r.target (some c)).queued.length) :: b)
        (.bump r.target (some c) ⟨r.msg, r.kind⟩)
  | markPassive {r k b} (hkind : r.kind = .passive) :
      Move s c (.send r (.mark k) :: b) (.send r (.leave k) :: b) (.mark r.target c)
  | mark {r k b} (hkind : r.kind ≠ .passive) :
      Move s c (.send r (.mark k) :: b) (.send r (.signal k) :: b) (.mark r.target c)
  | signalBusy {r k b} (hbusy : (s.cpu r.target).npoll = true) :
      Move s c (.send r (.signal k) :: b) (.send r (.leave k) :: b) .nothing
  | signalFree {r k b} (hfree : (s.cpu r.target).npoll = false) :
      Move s c (.send r (.signal k) :: b) (.send r (.signalIpi k) :: b) (.acquire r.target)
  | signalIpi {r k b} :
      Move s c (.send r (.signalIpi k) :: b) (.send r (.leave k) :: b) (.ipi r.target)
  | leaveNowait {r k b} (hkind : r.kind = .nowait) :
      Move s c (.send r (.leave k) :: b) b .nothing
  | leave {r k b} (hkind : r.kind ≠ .nowait) :
      Move s c (.send r (.leave k) :: b) b
        (.ticket c ⟨r.target, (s.fifo r.target (some c)).windex, k⟩)
  -- lwkt_process_ipiq and lwkt_process_ipiq_frame
  | read {fr b} :
      Move s c (.process fr .read :: b) (.process fr (.clear (s.cpu c).ipimask) :: b) .nothing
  | clear {fr mask b} :
      Move s c (.process fr (.clear mask) :: b) (.process fr (.scan mask) :: b) (.clear c mask)
  | scanDone {fr mask b} (hlow : lowest mask = none) :
      Move s c (.process fr (.scan mask) :: b) (.process fr .sync :: b) .nothing
  | scanSelf {fr mask b} (hlow : lowest mask = some c) :
      Move s c (.process fr (.scan mask) :: b) (.process fr (.scan (mask.erase c)) :: b) .nothing
  | scanFifo {fr mask a b} (hlow : lowest mask = some a) (ha : a ≠ c) :
      Move s c (.process fr (.scan mask) :: b)
        (.core (some a) 0 0 .enter :: .process fr (.fifo mask a) :: b) .nothing
  | syncSkip {fr b} (hempty : (s.fifo c none).rindex = (s.fifo c none).windex) :
      Move s c (.process fr .sync :: b) (.process fr .recheck :: b) .nothing
  | sync {fr b} :
      Move s c (.process fr .sync :: b)
        (.core none 0 0 .enter :: .process fr .syncing :: b) .nothing
  | recheckClear {fr b} (hempty : (s.cpu c).ipimask = ∅) :
      Move s c (.process fr .recheck :: b) (.process fr .release :: b) .nothing
  | recheckAgain {fr b} (hmore : (s.cpu c).ipimask ≠ ∅) :
      Move s c (.process fr .recheck :: b) (.process fr .read :: b) .nothing
  | release {fr b} :
      Move s c (.process fr .release :: b) (.process fr .recheckAfter :: b) (.release c)
  | processReturn {fr b} (hempty : (s.cpu c).ipimask = ∅) :
      Move s c (.process fr .recheckAfter :: b) b .nothing
  | processAgain {fr b} (hmore : (s.cpu c).ipimask ≠ ∅) :
      Move s c (.process fr .recheckAfter :: b) (.process fr .read :: b) .nothing
  -- lwkt_process_ipiq_core
  | enter {source wi snap b} :
      Move s c (.core source wi snap .enter :: b) (.core source (s.fifo c source).windex
          (s.fifo c source).queued.length .test :: b) .nothing
  | testNull {source wi snap b} :
      Move s c (.core source wi snap .test :: b) (.core source wi snap .test :: b) .panic
  | testMore {source wi snap m b}
      (hmore : 0 < (wi - (s.fifo c source).rindex).toInt)
      (hslot : (s.fifo c source).info (Fifo.slot (s.fifo c source).rindex) = some m) :
      Move s c (.core source wi snap .test :: b) (.core source wi snap (.taken m) :: b) .nothing
  | testDone {source wi snap b}
      (hdone : (wi - (s.fifo c source).rindex).toInt ≤ 0) :
      Move s c (.core source wi snap .test :: b) (.core source wi snap .exit :: b) .nothing
  | taken {source wi snap m b} :
      Move s c (.core source wi snap (.taken m) :: b)
        (m.frame :: .core source wi snap (.running (s.fifo c source).started.length) :: b)
        (.take c source m)
  | complete {source wi snap position b} :
      Move s c (.core source wi snap (.running position) :: b)
        (.core source wi snap .test :: b) (.complete c source position)
  | exit {source wi snap b} :
      Move s c (.core source wi snap .exit :: b) (b.modifyHead (s.resume c
          (decide ((s.fifo c source).rindex ≠ (s.fifo c source).windex)))) .nothing
  -- lwkt_cpusync_remote1 and lwkt_cpusync_remote2
  | ack {p b} :
      Move s c (.remote p .ack :: b) (.remote p .poll :: b) (.ack p c)
  | remoteWait {p b} (hmack : c ∈ (s.cs p).mack) :
      Move s c (.remote p .poll :: b) (.remote p .requeue :: b) .nothing
  | remoteGo {p b} (hmack : c ∉ (s.cs p).mack) :
      Move s c (.remote p .poll :: b) (.remote p .func :: b) .nothing
  | remoteNull {p b} (hfunc : (s.cs p).func = none) :
      Move s c (.remote p .func :: b) (.remote p .reack :: b) .nothing
  | remoteFunc {p f b} (hfunc : (s.cs p).func = some f) :
      Move s c (.remote p .func :: b) (.function f 0 :: .remote p .reack :: b) (.ran p c)
  | reack {p b} :
      Move s c (.remote p .reack :: b) b (.ack p c)
  | requeue {p b} (hroom : (s.fifo c none).fill < 32) :
      Move s c (.remote p .requeue :: b) b (.requeue c p)
  | requeuePanic {p b} (hfull : 32 ≤ (s.fifo c none).fill) :
      Move s c (.remote p .requeue :: b) b .panic
  -- lwkt_cpusync_interlock
  | lockBegin {p b} :
      Move s c (.interlock p .begin :: b) (.interlock p .count :: b) (.zero p)
  | lockAlone {p b} (hmask : (s.cs p).mask.erase c = ∅) :
      Move s c (.interlock p .count :: b) (.held p :: b) (.locked p)
  | lockCount {p b} (hmask : (s.cs p).mask.erase c ≠ ∅) :
      Move s c (.interlock p .count :: b) (.interlock p (.sending ((s.cs p).mask.erase c)) :: b)
        (.cscount c ((s.cpu c).cscount + 1))
  | lockSent {p mask b} (hlow : lowest mask = none) :
      Move s c (.interlock p (.sending mask) :: b) (.interlock p .waiting :: b) .nothing
  | lockSend {p mask target b} (hlow : lowest mask = some target) :
      Move s c (.interlock p (.sending mask) :: b) (.send ⟨.norm, target, .remote1 p⟩ .start ::
          .interlock p (.sending (mask.erase target)) :: b) .nothing
  | lockDone {p b} (hmack : (s.cs p).mack = (s.cs p).mask.erase c) :
      Move s c (.interlock p .waiting :: b) (.held p :: b) (.locked p)
  | lockWait {p b} (hmack : (s.cs p).mack ≠ (s.cs p).mask.erase c) :
      Move s c (.interlock p .waiting :: b)
        (.process false .read :: .interlock p .waiting :: b) .nothing
  -- lwkt_cpusync_deinterlock
  | unlockTake {p b} :
      Move s c (.deinterlock p .take :: b) (.deinterlock p (.zero (s.cs p).mack) :: b) .nothing
  | unlockZero {p mask b} :
      Move s c (.deinterlock p (.zero mask) :: b) (.deinterlock p (.own mask) :: b) (.zero p)
  | unlockSkip {p mask b} (hfunc : (s.cs p).func = none ∨ c ∉ (s.cs p).mask) :
      Move s c (.deinterlock p (.own mask) :: b) (.deinterlock p (.test mask) :: b) .nothing
  | unlockOwn {p mask f b} (hfunc : (s.cs p).func = some f)
      (hmask : c ∈ (s.cs p).mask) :
      Move s c (.deinterlock p (.own mask) :: b)
        (.function f 0 :: .deinterlock p (.test mask) :: b) (.ran p c)
  | unlockAlone {p b} :
      Move s c (.deinterlock p (.test ∅) :: b) (.deinterlock p .done :: b) .nothing
  | unlockDone {p mask b} (hmask : mask ≠ ∅) (hmack : (s.cs p).mack = mask) :
      Move s c (.deinterlock p (.test mask) :: b) (.deinterlock p .last :: b) .nothing
  | unlockWait {p mask b} (hmask : mask ≠ ∅) (hmack : (s.cs p).mack ≠ mask) :
      Move s c (.deinterlock p (.test mask) :: b)
        (.process false .read :: .deinterlock p (.test mask) :: b) .nothing
  | unlockLast {p b} :
      Move s c (.deinterlock p .last :: b) (.process false .read :: .deinterlock p .done :: b)
        (.cscount c ((s.cpu c).cscount - 1))
  | unlockReturn {p b} :
      Move s c (.deinterlock p .done :: b) b (.closed p)
  -- lwkt_wait_ipiq
  | waitMore {target seq k b} (htarget : target ≠ c)
      (hmore : ((s.fifo target (some c)).xindex - seq).toInt < 0) :
      Move s c (.wait target seq k false :: b)
        (.process false .read :: .wait target seq k false :: b) .nothing
  | waitDone {target seq k b}
      (hdone : target = c ∨ 0 ≤ ((s.fifo target (some c)).xindex - seq).toInt) :
      Move s c (.wait target seq k false :: b) (.wait target seq k true :: b) .nothing
  | waitReturn {target seq k b} :
      Move s c (.wait target seq k true :: b) b .nothing
  -- choices of threads and message functions
  | functionRequest {f sent kind target g b} :
      Move s c (.function f sent :: b)
        (.send ⟨kind, target, .call g⟩ .start :: .function f (sent + 1) :: b)
        .nothing
  | functionWait {f sent ticket b} (hticket : ticket ∈ (s.cpu c).tickets) :
      Move s c (.function f sent :: b)
        (.wait ticket.target ticket.seq ticket.position false :: .function f sent :: b) .nothing
  | functionFinish {f sent b} :
      Move s c (.function f sent :: b) b .nothing
  | heldRequest {p kind target g b} :
      Move s c (.held p :: b) (.send ⟨kind, target, .call g⟩ .start :: .held p :: b) .nothing
  | heldWait {p ticket b} (hticket : ticket ∈ (s.cpu c).tickets) :
      Move s c (.held p :: b) (.wait ticket.target ticket.seq ticket.position false :: .held p :: b)
        .nothing
  | unlockCall {p b} :
      Move s c (.held p :: b) (.deinterlock p .take :: b) .nothing
  | idleRequest {kind target g} :
      Move s c [] [.send ⟨kind, target, .call g⟩ .start] .nothing
  | idleWait {ticket} (hticket : ticket ∈ (s.cpu c).tickets) :
      Move s c [] [.wait ticket.target ticket.seq ticket.position false] .nothing
  | idleProcess : Move s c [] [.process false .read] .nothing
  | idleService (hipi : (s.cpu c).ipi = true) :
      Move s c [] [.process true .read] (.service c)
  | lockCall {mask func} :
      Move s c [] [.interlock ⟨c, (s.cpu c).serial⟩ .begin]
        (.initCs ⟨c, (s.cpu c).serial⟩ mask func)

namespace State

variable {s : State n F} {c : Fin n} {b : List (Frame n F)}

theorem move_send (r : Req n F) (pc : SendPc) :
    Move s c (.send r pc :: b) (s.proceed c b (s.sendStep c r pc).1) (s.sendStep c r pc).2 := by
  cases pc with
  | start =>
    rw [sendStep]
    split_ifs with hself hkind hkind hfill hfill
    · exact .sendSelfPassive hself
    · exact .sendSelf hself hkind
    · exact .sendRefused hself hkind
    · refine .sendNowait hself hkind ?_
      simp only [maxCpuFifo] at hfill
      omega
    · exact .sendFull hself hkind hfill
    · refine .sendRoom hself hkind ?_
      simp only [maxCpuFifo] at hfill
      omega
  | test =>
    rw [sendStep]
    split_ifs with hfill
    · exact .loopFull hfill
    · refine .loopRoom ?_
      simp only [maxCpuFifo] at hfill
      omega
  | poll =>
    rw [sendStep]
    split_ifs with hpoll
    · exact .pollBusy hpoll
    · exact .pollFree (by simpa using hpoll)
  | pollIpi => exact .pollIpi
  | drain =>
    rw [sendStep]
    split_ifs with hfill
    · exact .drainPanic hfill
    · exact .drain
  | write => exact .write
  | bump => exact .bump
  | mark position =>
    rw [sendStep]
    split_ifs with hkind
    · exact .markPassive hkind
    · exact .mark hkind
  | signal position =>
    rw [sendStep]
    split_ifs with hpoll
    · exact .signalBusy hpoll
    · exact .signalFree (by simpa using hpoll)
  | signalIpi position => exact .signalIpi
  | leave position =>
    rw [sendStep]
    split_ifs with hkind
    · exact .leaveNowait hkind
    · exact .leave hkind

theorem move_process
    (fr : Bool) (pc : ProcessPc n) (h : s.processStep c fr pc = some (outcome, e)) :
    Move s c (.process fr pc :: b) (s.proceed c b outcome) e := by
  cases pc with
  | read =>
    cases h
    exact .read
  | clear mask =>
    cases h
    exact .clear
  | scan mask =>
    rw [processStep] at h
    split at h
    · rename_i hlow
      cases h
      exact .scanDone hlow
    · rename_i a hlow
      split_ifs at h with ha
      · cases h
        subst ha
        exact .scanSelf hlow
      · cases h
        exact .scanFifo hlow ha
  | fifo mask source | syncing => cases h
  | sync =>
    rw [processStep] at h
    split_ifs at h with hsync
    · cases h
      exact .syncSkip hsync.2
    · cases h
      exact .sync
  | recheck =>
    rw [processStep] at h
    split_ifs at h with hmask
    · cases h
      exact .recheckClear hmask
    · cases h
      exact .recheckAgain hmask
  | release =>
    cases h
    exact .release
  | recheckAfter =>
    rw [processStep] at h
    split_ifs at h with hmask
    · cases h
      exact .processReturn hmask
    · cases h
      exact .processAgain hmask

theorem move_core (source : Option (Fin n)) (wi : BitVec 32) (snap : ℕ) (pc : CorePc n F) :
    Move s c (.core source wi snap pc :: b) (s.proceed c b (s.coreStep c source wi snap pc).1)
      (s.coreStep c source wi snap pc).2 := by
  cases pc with
  | enter => exact .enter
  | test =>
    rw [coreStep]
    split_ifs with hmore
    · split
      · exact .testNull
      · rename_i m hslot
        exact .testMore hmore hslot
    · exact .testDone (not_lt.mp hmore)
  | taken m => exact .taken
  | running position => exact .complete
  | exit => exact .exit

theorem move_remote (p : CsPtr n) (pc : RemotePc) :
    Move s c (.remote p pc :: b) (s.proceed c b (s.remoteStep c p pc).1)
      (s.remoteStep c p pc).2 := by
  cases pc with
  | ack => exact .ack
  | poll =>
    rw [remoteStep]
    split_ifs with hmack
    · exact .remoteWait hmack
    · exact .remoteGo hmack
  | func =>
    rw [remoteStep]
    split
    · rename_i hfunc
      exact .remoteNull hfunc
    · rename_i f hfunc
      exact .remoteFunc hfunc
  | reack => exact .reack
  | requeue =>
    rw [remoteStep]
    split_ifs with hroom
    · exact .requeue hroom
    · exact .requeuePanic (not_lt.mp hroom)

theorem move_interlock (p : CsPtr n) (pc : InterlockPc n) :
    Move s c (.interlock p pc :: b) (s.proceed c b (s.interlockStep c p pc).1)
      (s.interlockStep c p pc).2 := by
  cases pc with
  | begin => exact .lockBegin
  | count =>
    rw [interlockStep]
    split_ifs with hmask
    · exact .lockAlone hmask
    · exact .lockCount hmask
  | sending mask =>
    rw [interlockStep]
    split
    · rename_i hlow
      exact .lockSent hlow
    · rename_i target hlow
      exact .lockSend hlow
  | waiting =>
    rw [interlockStep]
    split_ifs with hmack
    · exact .lockDone hmack
    · exact .lockWait hmack

theorem move_deinterlock (p : CsPtr n) (pc : DeinterlockPc n) :
    Move s c (.deinterlock p pc :: b) (s.proceed c b (s.deinterlockStep c p pc).1)
      (s.deinterlockStep c p pc).2 := by
  cases pc with
  | take => exact .unlockTake
  | zero mask => exact .unlockZero
  | own mask =>
    rw [deinterlockStep]
    split
    · rename_i hfunc
      exact .unlockSkip (.inl hfunc)
    · rename_i f hfunc
      split_ifs with hmask
      · exact .unlockOwn hfunc hmask
      · exact .unlockSkip (.inr hmask)
  | test mask =>
    rw [deinterlockStep]
    split_ifs with hmask hmack
    · rw [hmask]
      exact .unlockAlone
    · exact .unlockDone hmask hmack
    · exact .unlockWait hmask hmack
  | last => exact .unlockLast
  | done => exact .unlockReturn

theorem move_wait (target : Fin n) (seq : BitVec 32) (k : ℕ) (returned : Bool) :
    Move s c (.wait target seq k returned :: b)
      (s.proceed c b (s.waitStep c target seq k returned).1)
      (s.waitStep c target seq k returned).2 := by
  cases returned with
  | true => exact .waitReturn
  | false =>
    rw [waitStep]
    split_ifs with hwait
    · exact .waitMore hwait.1 hwait.2
    · refine .waitDone ?_
      by_cases htarget : target = c
      · exact .inl htarget
      · exact .inr (not_lt.mp fun hlt => hwait ⟨htarget, hlt⟩)

theorem move_of_step
    {step : Outcome n F × Effect n F} (hmove : Move s c (frame :: b) (s.proceed c b step.1) step.2)
    (h : some step = some (outcome, e)) : Move s c (frame :: b) (s.proceed c b outcome) e := by
  rw [Option.some.inj h] at hmove
  exact hmove

theorem move_code (frame : Frame n F) (h : s.codeStep c frame = some (outcome, e)) :
    Move s c (frame :: b) (s.proceed c b outcome) e := by
  cases frame with
  | send r pc => exact move_of_step (move_send r pc) h
  | process fr pc => exact move_process fr pc h
  | core source wi snap pc => exact move_of_step (move_core source wi snap pc) h
  | function f sent | held p => cases h
  | remote p pc => exact move_of_step (move_remote p pc) h
  | interlock p pc => exact move_of_step (move_interlock p pc) h
  | deinterlock p pc => exact move_of_step (move_deinterlock p pc) h
  | wait target seq k returned => exact move_of_step (move_wait target seq k returned) h

theorem move_choose
    {after : List (Frame n F)} (input : Input n F) (h : s.choose c before input = some (after, e)) :
    Move s c before after e := by
  unfold choose at h
  split at h
  · cases h
    exact .functionRequest
  · split_ifs at h with hticket
    cases h
    exact .functionWait hticket
  · cases h
    exact .functionFinish
  · cases h
    exact .heldRequest
  · split_ifs at h with hticket
    cases h
    exact .heldWait hticket
  · cases h
    exact .unlockCall
  · cases h
    exact .idleRequest
  · split_ifs at h with hticket
    cases h
    exact .idleWait hticket
  · cases h
    exact .idleProcess
  · split_ifs at h with hipi
    cases h
    exact .idleService hipi
  · cases h
    exact .lockCall
  · cases h

theorem move_of_next (h : s.next (c, input) = some s') :
    ∃ after e, Move s c (s.cpu c).frames after e ∧ s' = (s.setFrames c after).apply e := by
  obtain ⟨-, frames, e, hstep, hs'⟩ := next_eq_some h
  refine ⟨frames, e, ?_, hs'⟩
  cases input with
  | run =>
    rw [stepFrames] at hstep
    split at hstep
    · cases hstep
    · rename_i frame below hframes
      rw [Option.map_eq_some_iff] at hstep
      obtain ⟨⟨outcome, e'⟩, hcode, heq⟩ := hstep
      cases heq
      rw [hframes]
      exact move_code frame hcode
  | request kind target f => exact move_choose (.request kind target f) hstep
  | wait ticket => exact move_choose (.wait ticket) hstep
  | finish => exact move_choose .finish hstep
  | process => exact move_choose .process hstep
  | service => exact move_choose .service hstep
  | interlock mask func => exact move_choose (.interlock mask func) hstep
  | deinterlock => exact move_choose .deinterlock hstep

end State

/-- A frame that runs a function which another frame has called. -/
def Frame.IsBody : Frame n F → Prop
  | .function _ _ => True
  | .remote _ _ => True
  | _ => False

/-- What is called; a frame keeps it from one point of its code to the next. -/
inductive FrameKind (n : ℕ) where
  | send
  | process
  | core (source : Option (Fin n))
  | body
  | base
  | wait

def Frame.kind : Frame n F → FrameKind n
  | .send _ _ => .send
  | .process _ _ => .process
  | .core source _ _ _ => .core source
  | .function _ _ | .remote _ _ => .body
  | .interlock _ _ | .held _ | .deinterlock _ _ => .base
  | .wait _ _ _ _ => .wait

theorem isBody_iff : frame.IsBody ↔ frame.kind = .body := by
  cases frame <;> simp [Frame.IsBody, Frame.kind]

/-- The first frame is a call made by the second one. -/
inductive Calls : Frame n F → Frame n F → Prop
  | functionSend {r pc f sent} : Calls (.send r pc) (.function f sent)
  | heldSend {r pc p} : Calls (.send r pc) (.held p)
  | interlockSend {r pc p mask} : Calls (.send r pc) (.interlock p (.sending mask))
  | sendProcess {fr pc r} : Calls (.process fr pc) (.send r .test)
  | interlockProcess {fr pc p} : Calls (.process fr pc) (.interlock p .waiting)
  | testProcess {fr pc p mask} : Calls (.process fr pc) (.deinterlock p (.test mask))
  | lastProcess {fr pc p} : Calls (.process fr pc) (.deinterlock p .done)
  | waitProcess {fr pc target seq k} :
      Calls (.process fr pc) (.wait target seq k false)
  | fifoCore {a wi snap pc fr mask} :
      Calls (.core (some a) wi snap pc) (.process fr (.fifo mask a))
  | syncCore {wi snap pc fr} :
      Calls (.core none wi snap pc) (.process fr .syncing)
  | functionWait {target seq k returned f sent} :
      Calls (.wait target seq k returned) (.function f sent)
  | heldWait {target seq k returned p} :
      Calls (.wait target seq k returned) (.held p)
  | coreBody {frame source wi snap k} (hbody : Frame.IsBody frame) :
      Calls frame (.core source wi snap (.running k))
  | remoteBody {frame p} (hbody : Frame.IsBody frame) :
      Calls frame (.remote p .reack)
  | deinterlockBody {frame p mask} (hbody : Frame.IsBody frame) :
      Calls frame (.deinterlock p (.test mask))
  | functionBody {frame f sent} (hbody : Frame.IsBody frame) :
      Calls frame (.function f sent)
  | heldBody {frame p} (hbody : Frame.IsBody frame) : Calls frame (.held p)
  | interlockBody {frame p mask} (hbody : Frame.IsBody frame) :
      Calls frame (.interlock p (.sending mask))

/-- Every frame of a stack has been called by the frame below it. -/
def State.Chained (s : State n F) : Prop :=
  ∀ c, List.IsChain Calls (s.cpu c).frames

theorem Msg.isBody_frame (m : Msg n F) : m.frame.IsBody := by
  cases m <;> trivial

section Chains

variable {frame frame' caller callee : Frame n F} {b : List (Frame n F)}

theorem Calls.congr {x : Frame n F} (h : Calls frame x) (hkind : frame'.kind = frame.kind) :
    Calls frame' x := by
  have hbody : frame.IsBody → frame'.IsBody := by
    rw [isBody_iff, isBody_iff, hkind]
    exact id
  cases h with
  | coreBody h => exact .coreBody (hbody h)
  | remoteBody h => exact .remoteBody (hbody h)
  | deinterlockBody h => exact .deinterlockBody (hbody h)
  | functionBody h => exact .functionBody (hbody h)
  | heldBody h => exact .heldBody (hbody h)
  | interlockBody h => exact .interlockBody (hbody h)
  | _ => cases frame' <;> cases hkind; constructor

section

variable (h : List.IsChain Calls (frame :: b))
include h

theorem chain_map (hcalls : ∀ x, Calls frame x → Calls frame' x) :
    List.IsChain Calls (frame' :: b) := by
  cases b with
  | nil => exact isChain_singleton _
  | cons x b =>
    rw [isChain_cons_cons] at h ⊢
    exact ⟨hcalls x h.1, h.2⟩

theorem chain_goto (hkind : frame'.kind = frame.kind) : List.IsChain Calls (frame' :: b) :=
  chain_map h fun _ hx => hx.congr hkind

theorem chain_call (hkind : caller.kind = frame.kind) (hcall : Calls callee caller) :
    List.IsChain Calls (callee :: caller :: b) := by
  rw [isChain_cons_cons]
  exact ⟨hcall, chain_goto h hkind⟩

end

theorem core_caller {pc : CorePc n F} {x : Frame n F} (h : Calls (.core source wi snap pc) x) :
    (∃ a fr mask, source = some a ∧ x = .process fr (.fifo mask a)) ∨
      ∃ fr, source = none ∧ x = .process fr .syncing := by
  cases h with
  | fifoCore => exact .inl ⟨_, _, _, rfl, rfl⟩
  | syncCore => exact .inr ⟨_, rfl, rfl⟩
  | coreBody hbody | remoteBody hbody | deinterlockBody hbody | functionBody hbody
  | heldBody hbody | interlockBody hbody => exact hbody.elim

theorem calls_inline {r : Req n F} {pc : SendPc} {x : Frame n F} (hframe : frame.IsBody)
    (h : Calls (.send r pc) x) : Calls frame x := by
  cases h with
  | functionSend => exact .functionBody hframe
  | heldSend => exact .heldBody hframe
  | interlockSend => exact .interlockBody hframe
  | coreBody hbody | remoteBody hbody | deinterlockBody hbody | functionBody hbody
  | heldBody hbody | interlockBody hbody => exact hbody.elim

end Chains

/-- What a function that is not a message function stands at when it is called. -/
def Frame.Fresh : Frame n F → Prop
  | .send _ pc => pc = .start
  | .process _ pc => pc = .read
  | .core _ _ _ pc => pc = .enter
  | _ => True

theorem Frame.IsBody.fresh (h : frame.IsBody) : frame.Fresh := by
  cases frame <;> trivial

/-- What a move does to the stack.  The end of a pass goes on in its caller. -/
inductive Shape : List (Frame n F) → List (Frame n F) → Prop
  | idle {x} (hfresh : x.Fresh) : Shape [] [x]
  | goto {x y b} (hkind : y.kind = x.kind) : Shape (x :: b) (y :: b)
  | call {x y z b} (hkind : y.kind = x.kind) (hfresh : z.Fresh) (hcall : Calls z y) :
      Shape (x :: b) (z :: y :: b)
  | inline {r pc y b} (hbody : y.IsBody) : Shape (.send r pc :: b) (y :: b)
  | ret {x b} : Shape (x :: b) b
  | exit {x fr pc pc' b} : Shape (x :: .process fr pc :: b) (.process fr pc' :: b)

theorem Move.shape {s : State n F} {after : List (Frame n F)} (hmove : Move s c before after e)
    (h : List.IsChain Calls before) : Shape before after := by
  cases hmove with
  | sendSelf => exact .inline (Msg.isBody_frame _)
  | drain => exact .call rfl rfl .sendProcess
  | scanFifo => exact .call rfl rfl .fifoCore
  | sync => exact .call rfl rfl .syncCore
  | taken => exact .call rfl (Msg.isBody_frame _).fresh (.coreBody (Msg.isBody_frame _))
  | exit =>
    rename_i b
    cases b with
    | nil => exact .ret
    | cons x b =>
      rw [isChain_cons_cons] at h
      rcases core_caller h.1 with ⟨a, fr, mask, -, rfl⟩ | ⟨fr, -, rfl⟩
      · exact .exit
      · exact .exit
  | remoteFunc => exact .call rfl trivial (.remoteBody trivial)
  | lockSend => exact .call rfl rfl .interlockSend
  | lockWait => exact .call rfl rfl .interlockProcess
  | unlockOwn => exact .call rfl trivial (.deinterlockBody trivial)
  | unlockWait => exact .call rfl rfl .testProcess
  | unlockLast => exact .call rfl rfl .lastProcess
  | waitMore => exact .call rfl rfl .waitProcess
  | functionRequest => exact .call rfl rfl .functionSend
  | functionWait => exact .call rfl trivial .functionWait
  | heldRequest => exact .call rfl rfl .heldSend
  | heldWait => exact .call rfl trivial .heldWait
  | idleRequest | idleProcess | idleService => exact .idle rfl
  | idleWait | lockCall => exact .idle trivial
  | sendSelfPassive | sendRefused | leaveNowait | leave | processReturn | reack
  | requeue | requeuePanic | unlockReturn | waitReturn | functionFinish => exact .ret
  | _ => exact .goto rfl

namespace Shape

variable {before after b : List (Frame n F)} {x : Frame n F}

theorem chain (hshape : Shape before after) (h : List.IsChain Calls before) :
    List.IsChain Calls after := by
  cases hshape with
  | idle => exact isChain_singleton _
  | goto hkind => exact chain_goto h hkind
  | call hkind hfresh hcall => exact chain_call h hkind hcall
  | inline hbody => exact chain_map h fun x hx => calls_inline hbody hx
  | ret => exact h.tail
  | exit => exact chain_goto h.tail rfl

/-- A frame of the new stack was there before, has been called, or stands where the top
frame stood. -/
theorem mem (hshape : Shape before after) (hx : x ∈ after) :
    x ∈ before ∨ x.Fresh ∨ x.kind = .process ∨ ∃ top b, before = top :: b ∧ top.kind = x.kind ∧
        (after = x :: b ∨ ∃ z, after = z :: x :: b) := by
  cases hshape with
  | idle hfresh =>
    rw [mem_singleton.mp hx]
    exact .inr (.inl hfresh)
  | goto hkind =>
    rcases mem_cons.mp hx with rfl | hx
    · exact .inr (.inr (.inr ⟨_, _, rfl, hkind.symm, .inl rfl⟩))
    · exact .inl (mem_cons_of_mem _ hx)
  | call hkind hfresh =>
    rcases mem_cons.mp hx with rfl | hx
    · exact .inr (.inl hfresh)
    · rcases mem_cons.mp hx with rfl | hx
      · exact .inr (.inr (.inr ⟨_, _, rfl, hkind.symm, .inr ⟨_, rfl⟩⟩))
      · exact .inl (mem_cons_of_mem _ hx)
  | inline hbody =>
    rcases mem_cons.mp hx with rfl | hx
    · exact .inr (.inl hbody.fresh)
    · exact .inl (mem_cons_of_mem _ hx)
  | ret => exact .inl (mem_cons_of_mem _ hx)
  | exit =>
    rcases mem_cons.mp hx with rfl | hx
    · exact .inr (.inr (.inl rfl))
    · exact .inl (mem_cons_of_mem _ (mem_cons_of_mem _ hx))

/-- A top frame that has not been called and does not wait for a call stands where the
top frame stood. -/
theorem top (hshape : Shape before after) (h : List.IsChain Calls before)
    (hafter : after = x :: b) (hfresh : ¬ x.Fresh) (hprocess : x.kind ≠ .process)
    (hcalls : ∀ z, ¬ Calls z x) : ∃ top, before = top :: b ∧ top.kind = x.kind := by
  cases hshape with
  | idle hnew =>
    cases hafter
    exact absurd hnew hfresh
  | goto hkind =>
    cases hafter
    exact ⟨_, rfl, hkind.symm⟩
  | call hkind hnew =>
    cases hafter
    exact absurd hnew hfresh
  | inline hbody =>
    cases hafter
    exact absurd hbody.fresh hfresh
  | ret =>
    rw [hafter, isChain_cons_cons] at h
    exact absurd h.1 (hcalls _)
  | exit =>
    cases hafter
    exact absurd rfl hprocess

end Shape

theorem State.frames_step {s : State n F} {after : List (Frame n F)} (x : Fin n) :
    ((((s.setFrames c after).apply e).cpu x).frames) =
      if x = c then after else (s.cpu x).frames := by
  rw [State.apply_frames, State.setFrames_frames]

theorem State.Chained.next
    {s : State n F} (h : s.Chained) (hnext : s.next (c, input) = some s') : s'.Chained := by
  obtain ⟨after, e, hmove, rfl⟩ := State.move_of_next hnext
  intro x
  rw [State.frames_step]
  split_ifs with hx
  · exact (hmove.shape (h c)).chain (h c)
  · exact h x

end Ipiq
end DragonFly
