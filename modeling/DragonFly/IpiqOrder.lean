import DragonFly.IpiqFifo

/-!
# IPI messages are started once and in order

A pass over a FIFO compares the write index it has cached with the read index by
the sign of their difference.  Functions that it calls may take further entries out
of the same FIFO, so the read index may run ahead of the cached index.  As long as
it does so by at most half a turn of the 32-bit indices, the pass takes out exactly
the entries that are left.
-/

namespace DragonFly
namespace Ipiq

open List

variable {n : ℕ} {F : Type}

/-- A pass that is about to compare its cached index finds the read index at most
half a turn ahead of it. -/
def State.Near (s : State n F) (event : Fin n × Input n F) : Prop :=
  match (s.cpu event.1).frames with
  | .core source _ snap .test :: _ =>
    (s.fifo event.1 source).started.length ≤ snap + 2 ^ 31
  | _ => True

instance (s : State n F) (event : Fin n × Input n F) : Decidable (s.Near event) := by
  unfold State.Near
  split
  · exact Nat.decLe _ _
  · exact instDecidableTrue

/-- The messages started are the first ones queued, those that are left are in their
slots, and the difference of the indices is their number. -/
structure Fifo.Delivered (q : Fifo n F) : Prop where
  order : q.started <+: q.queued.map Entry.msg
  kept : ∀ k entry, q.started.length ≤ k → q.queued[k]? = some entry →
    q.info (k % maxCpuFifo) = some entry.msg
  count : q.fill = (q.queued.length : ℤ) - q.started.length
  bound : q.fill ≤ maxCpuFifo

namespace State

structure Ordered (s : State n F) : Prop where
  indexed : s.Indexed
  order : ∀ d source, (s.fifo d source).started <+: (s.fifo d source).queued.map Entry.msg
  cached : ∀ c source wi snap pc, .core source wi snap pc ∈ (s.cpu c).frames → pc ≠ .enter →
    wi = serial 32 snap ∧ snap ≤ (s.fifo c source).queued.length
  taken : ∀ c source wi snap m b, (s.cpu c).frames = .core source wi snap (.taken m) :: b →
    ((s.fifo c source).queued.map Entry.msg)[(s.fifo c source).started.length]? = some m

end State

variable {source : Option (Fin n)} {wi : BitVec 32} {snap : ℕ}

/-- The pass over a FIFO that a move leaves on the stack has been there before, or
it has just cached the write index. -/
theorem Move.core_mem {before after : List (Frame n F)} (hmove : Move s c before after e)
    (hchain : List.IsChain Calls before) (hmem : .core source wi snap pc ∈ after)
    (hpc : pc ≠ .enter) :
    (∃ pc', pc' ≠ .enter ∧ .core source wi snap pc' ∈ before) ∨ (wi = (s.fifo c source).windex ∧
        snap = (s.fifo c source).queued.length) := by
  rcases (hmove.shape hchain).mem hmem with hold | hfresh | hkind | ⟨top, b, rfl, hkind, hafter⟩
  · exact .inl ⟨pc, hpc, hold⟩
  · exact absurd hfresh hpc
  · cases hkind
  · cases top <;> cases hkind
    cases hmove with
    | enter =>
      rcases hafter with hafter | ⟨z, hafter⟩ <;> cases hafter
      exact .inr ⟨rfl, rfl⟩
    | exit =>
      rcases hafter with hafter | ⟨z, hafter⟩ <;>
        · have hlength := congrArg List.length hafter
          simp only [length_modifyHead, length_cons] at hlength
          omega
    | taken =>
      rcases hafter with hafter | ⟨z, hafter⟩
      · exact absurd (congrArg List.length hafter) (by simp)
      · cases hafter
        exact .inl ⟨_, by simp, mem_cons_self⟩
    | _ =>
      rcases hafter with hafter | ⟨z, hafter⟩ <;> cases hafter
      exact .inl ⟨_, by simp, mem_cons_self⟩

section Step

variable {s : State n F} {c : Fin n} {before after : List (Frame n F)}
  {e : Effect n F}

theorem Move.taken_top (hmove : Move s c before after e) (hchain : List.IsChain Calls before)
    (hafter : after = .core source wi snap (.taken m) :: b) :
    e = .nothing ∧ before = .core source wi snap .test :: b ∧
      0 < (wi - (s.fifo c source).rindex).toInt ∧
      (s.fifo c source).info (Fifo.slot (s.fifo c source).rindex) = some m := by
  obtain ⟨top, rfl, hkind⟩ := (hmove.shape hchain).top hchain hafter nofun nofun nofun
  cases top <;> cases hkind
  cases hmove with
  | testMore hmore hslot =>
    cases hafter
    exact ⟨rfl, rfl, hmore, hslot⟩
  | exit | taken => exact absurd (congrArg List.length hafter) (by simp)
  | _ => cases hafter

theorem Effect.queued_onFifo (e : Effect n F) (d : Fin n) (source : Option (Fin n)) (q : Fifo n F) :
    q.queued <+: (e.onFifo d source q).queued := by
  cases e <;> try exact prefix_rfl
  all_goals
    rw [Effect.onFifo]
    split_ifs
    · first
        | exact prefix_rfl
        | exact prefix_append _ _
    · exact prefix_rfl

theorem Move.started_of_ne (hmove : Move s c before after e) (hd : d ≠ c) (source : Option (Fin n))
    (q : Fifo n F) : (e.onFifo d source q).started = q.started := by
  cases hmove <;> try rfl
  all_goals
    rw [Effect.onFifo]
    split_ifs with heq
    · first
        | rfl
        | exact absurd heq.1 hd
    · rfl

theorem Move.order (hmove : Move s c before after e)
    (horder : ∀ d source, (s.fifo d source).started <+:
      (s.fifo d source).queued.map Entry.msg)
    (htaken : ∀ source wi snap m b, before = .core source wi snap (.taken m) :: b →
      ((s.fifo c source).queued.map Entry.msg)[(s.fifo c source).started.length]? = some m)
    (d : Fin n) (source : Option (Fin n)) :
    (e.onFifo d source (s.fifo d source)).started <+:
      (e.onFifo d source (s.fifo d source)).queued.map Entry.msg := by
  have hq := horder d source
  have hmore : ∀ entries : List (Entry n F), (s.fifo d source).queued <+: entries →
      (s.fifo d source).started <+: entries.map Entry.msg := by
    intro entries hentries
    exact hq.trans (hentries.map Entry.msg)
  cases hmove <;> try exact hq
  case write | complete =>
      rw [Effect.onFifo]
      split_ifs
      · exact hq
      · exact hq
  case bump | requeue =>
      rw [Effect.onFifo]
      split_ifs
      · exact hmore _ (prefix_append _ _)
      · exact hq
  case taken source' wi snap m b =>
      have hm := htaken source' wi snap m b rfl
      rw [Effect.onFifo]
      split_ifs with heq
      · obtain ⟨rfl, rfl⟩ := heq
        change (s.fifo d source).started ++ [m] <+: (s.fifo d source).queued.map Entry.msg
        obtain ⟨rest, hrest⟩ := hq
        rw [← hrest, getElem?_append_right le_rfl, Nat.sub_self] at hm
        cases rest with
        | nil => cases hm
        | cons y rest =>
          cases hm
          exact ⟨rest, by rw [← hrest, append_assoc, singleton_append]⟩
      · exact hq

end Step

namespace State

variable {s s' : State n F} {c : Fin n} {input : Input n F}

/-- A comparison within half a turn finds an entry exactly when one is left below
the cached index. -/
theorem Ordered.test_taken (h : s.Ordered) (hnear : s.Near (c, input))
    (hframes : (s.cpu c).frames = .core source wi snap .test :: b)
    (hmore : 0 < (wi - (s.fifo c source).rindex).toInt)
    (hslot : (s.fifo c source).info (Fifo.slot (s.fifo c source).rindex) = some m) :
    ((s.fifo c source).queued.map Entry.msg)[(s.fifo c source).started.length]? = some m := by
  have hsound := h.indexed.sound c source
  have hahead : (s.fifo c source).started.length ≤ snap + 2 ^ 31 := by
    rw [Near, hframes] at hnear
    exact hnear
  obtain ⟨hwi, hsnap⟩ := h.cached c source wi snap .test
    (by rw [hframes]; exact mem_cons_self) (by simp)
  have hroom := hsound.room
  have horder := (h.order c source).length_le
  rw [length_map] at horder
  have hdiff : (wi - (s.fifo c source).rindex).toInt =
      (snap : ℤ) - (s.fifo c source).started.length := by
    rw [hwi, hsound.rindex]
    apply Serial.toInt_sub
    · norm_num at hahead ⊢
      omega
    · rw [maxCpuFifo] at hroom
      norm_num
      omega
  rw [hdiff] at hmore
  have hlt : (s.fifo c source).started.length < (s.fifo c source).queued.length := by
    omega
  have hentry := getElem?_eq_getElem hlt
  have hinfo := hsound.intact _ _ le_rfl hentry
  rw [hsound.rindex, Fifo.slot_serial, hinfo] at hslot
  rw [getElem?_map, hentry, Option.map_some]
  exact hslot

theorem Ordered.next (h : s.Ordered) (hnear : s.Near (c, input))
    (hnext : s.next (c, input) = some s') : s'.Ordered := by
  have hindexed := h.indexed.next hnext
  obtain ⟨after, e, hmove, rfl⟩ := move_of_next hnext
  have hchain := h.indexed.chained c
  constructor
  · exact hindexed
  · intro d source
    rw [apply_fifo, setFrames_fifo]
    exact hmove.order h.order (h.taken c) d source
  · intro x source wi snap pc hmem hpc
    rw [apply_fifo, setFrames_fifo]
    have hmono := (e.queued_onFifo x source (s.fifo x source)).length_le
    have hold : ∀ pc', .core source wi snap pc' ∈ (s.cpu x).frames → pc' ≠ .enter →
        wi = serial 32 snap ∧ snap ≤ (e.onFifo x source (s.fifo x source)).queued.length := by
      intro pc' hmem' hpc'
      obtain ⟨hwi, hsnap⟩ := h.cached x source wi snap pc' hmem' hpc'
      exact ⟨hwi, hsnap.trans hmono⟩
    rw [frames_step] at hmem
    split_ifs at hmem with hx
    · subst hx
      rcases hmove.core_mem hchain hmem hpc with ⟨pc', hpc', hmem'⟩ | ⟨hwi, hsnap⟩
      · exact hold pc' hmem' hpc'
      · rw [hwi, hsnap]
        exact ⟨(h.indexed.sound x source).windex, hmono⟩
    · exact hold pc hmem hpc
  · intro x source wi snap m b hframes
    rw [apply_fifo, setFrames_fifo]
    rw [frames_step] at hframes
    split_ifs at hframes with hx
    · subst hx
      obtain ⟨rfl, hbefore, hmore, hslot⟩ := hmove.taken_top hchain hframes
      exact h.test_taken hnear hbefore hmore hslot
    · have htaken := h.taken x source wi snap m b hframes
      obtain ⟨rest, hrest⟩ := e.queued_onFifo x source (s.fifo x source)
      rw [hmove.started_of_ne hx, ← hrest, map_append, List.getElem?_append_left]
      · exact htaken
      · obtain ⟨hlt, -⟩ := List.getElem?_eq_some_iff.mp htaken
        exact hlt

theorem ordered_initial : (initial : State n F).Ordered := by
  constructor
  · exact indexed_initial
  · intro d source
    exact prefix_rfl
  · intro c source wi snap pc hmem
    cases hmem
  · intro c source wi snap m b hframes
    cases hframes

theorem Ordered.delivered (h : s.Ordered) (d : Fin n) (source : Option (Fin n)) :
    (s.fifo d source).Delivered := by
  have hsound := h.indexed.sound d source
  have horder := h.order d source
  have hlength := horder.length_le
  rw [length_map] at hlength
  have hcount := hsound.fill_eq hlength
  have hroom := hsound.room
  constructor
  · exact horder
  · exact hsound.intact
  · exact hcount
  · rw [hcount]
    omega

end State

theorem ordered_of_near {s : State n F} (h : Runs State.Near s) : s.Ordered := by
  apply h.invariant State.Ordered
  · intro start hstart
    rw [hstart]
    exact State.ordered_initial
  · intro s event s' hs hallow hnext
    exact hs.next hallow hnext

/-- As long as no pass falls more than half a turn behind, every FIFO starts its
messages once each and in the order in which they were queued. -/
theorem delivered_of_near {s : State n F} (h : Runs State.Near s) (d a : Fin n) :
    (s.fifo d (some a)).Delivered :=
  (ordered_of_near h).delivered d (some a)

/-- The steps of one send to another cpu whose FIFO has room. -/
def passiveSend {n : ℕ} {F : Type} (c target : Fin n) (f : F) : List (Fin n × Input n F) :=
  (c, .request .passive target f) :: List.replicate 5 (c, .run)

theorem delivered_after_two_sends :
    ∃ s : State 2 Bool, Runs State.Near s ∧ (s.fifo 1 (some 0)).started = [.call true] ∧
      (s.fifo 1 (some 0)).queued.length = 2 ∧ (s.fifo 1 (some 0)).Delivered := by
  have hrun : ((runEvents State.Near State.next (State.initial : State 2 Bool)
      (passiveSend 0 1 true ++ passiveSend 0 1 false ++
        [(1, .process)] ++ List.replicate 6 (1, .run))).map fun s =>
          ((s.fifo 1 (some 0)).started, (s.fifo 1 (some 0)).queued.length)) =
      some ([.call true], 2) := by
    decide +kernel
  have hstart : Runs State.Near (State.initial : State 2 Bool) := .start rfl
  obtain ⟨s, hreach, hview⟩ := hstart.view hrun
  rw [Prod.mk.injEq] at hview
  exact ⟨s, hreach, hview.1, hview.2, delivered_of_near hreach 1 0⟩

/-! ## A pass that falls a whole turn behind

A function that cpu 1 runs for cpu 0 finds the FIFO towards cpu 2 full and processes
incoming messages until there is room.  Meanwhile cpu 0 keeps sending.  When the
indices have gone once around, the pass that is waiting for the function takes its
cached write index for one that lies ahead, and starts a slot once more. -/

namespace Wrap

open Function State

local instance threeCpus : NeZero 3 := ⟨by decide⟩

def sinkReq : Req 3 Bool :=
  ⟨.norm, 2, .call false⟩

/-- The pass that waits for the function of the first message. -/
def outer : List (Frame 3 Bool) :=
  [.function false 1, .core (some 0) 1 1 (.running 0), .process false (.fifo {0} 0)]

/-- The loop of the full FIFO, below a pass over the messages of cpu 0. -/
def loop : List (Frame 3 Bool) :=
  .process false (.fifo {0} 0) :: .send sinkReq .test :: outer

def inner (wi : BitVec 32) (snap : ℕ) : List (Frame 3 Bool) :=
  .core (some 0) wi snap .exit :: loop

def sent (kind : SendKind) (f : Bool) (q : Fifo 3 Bool) : Fifo 3 Bool :=
  (q.write (.call f)).bump ⟨.call f, kind⟩

/-- What the run below depends on. -/
structure Spin (s : State 3 Bool) (sender receiver : List (Frame 3 Bool))
    (mask : Finset (Fin 3)) (q sink : Fifo 3 Bool) (ipi : Bool := false) : Prop where
  runs : Runs (fun _ _ => True) s
  panicked : s.panicked = false
  sender : (s.cpu 0).frames = sender
  receiver : (s.cpu 1).frames = receiver
  mask : (s.cpu 1).ipimask = mask
  npoll : (s.cpu 2).npoll = true
  ipi : (s.cpu 1).ipi = ipi
  third : ∀ r pc, .send r pc ∉ (s.cpu 2).frames
  fifo : s.fifo 1 (some 0) = q
  sync : (s.fifo 1 none).windex = 0 ∧ (s.fifo 1 none).rindex = 0
  sink : s.fifo 2 (some 1) = sink

/-- What an effect makes of the parts of the state that the run depends on. -/
structure Sees (e : Effect 3 Bool) (mask mask' : Finset (Fin 3))
    (q q' sink sink' : Fifo 3 Bool) (ipi ipi' : Bool := false) : Prop where
  panic : e ≠ .panic
  mask : e.onMask 1 mask = mask'
  fifo : e.onFifo 1 (some 0) q = q'
  sink : e.onFifo 2 (some 1) sink = sink'
  npoll : e.onNpoll 2 true = true
  ipi : e.onIpi 1 ipi = ipi'
  sync : ∀ x, e.onFifo 1 none x = x

theorem sees {e : Effect 3 Bool} (hpanic : e ≠ .panic) (hnpoll : e.onNpoll 2 true = true)
    (hipi : e.onIpi 1 false = false) (hsync : ∀ x, e.onFifo 1 none x = x) :
    Sees e mask (e.onMask 1 mask) q (e.onFifo 1 (some 0) q) sink (e.onFifo 2 (some 1) sink) :=
  ⟨hpanic, rfl, rfl, rfl, hnpoll, hipi, hsync⟩

theorem sees_nothing (mask : Finset (Fin 3)) (q sink : Fifo 3 Bool) :
    Sees .nothing mask mask q q sink sink :=
  sees (by simp) rfl rfl fun _ => rfl

namespace Spin

variable {s : State 3 Bool} {sender receiver frames : List (Frame 3 Bool)}
  {mask mask' : Finset (Fin 3)} {q q' sink sink' : Fifo 3 Bool} {ipi ipi' : Bool}

theorem step (h : Spin s sender receiver mask q sink ipi) (c : Fin 3) (hc : c ≠ 2)
    (input : Input 3 Bool) (e : Effect 3 Bool) (hstep : s.stepFrames c input = some (frames, e))
    (hsees : Sees e mask mask' q q' sink sink' ipi ipi') :
    ∃ s', Spin s' (if 0 = c then frames else sender)
      (if 1 = c then frames else receiver) mask' q' sink' ipi' := by
  refine ⟨(s.setFrames c frames).apply e, ?_⟩
  have hnext := next_of_stepFrames h.panicked hstep
  constructor
  · exact .step h.runs trivial hnext
  · rw [apply_panicked _ hsees.panic, setFrames_panicked]
    exact h.panicked
  · rw [frames_step, h.sender]
  · rw [frames_step, h.receiver]
  · rw [apply_ipimask, setFrames_ipimask, h.mask]
    exact hsees.mask
  · rw [apply_npoll, setFrames_npoll, h.npoll]
    exact hsees.npoll
  · rw [apply_ipi, setFrames_ipi, h.ipi]
    exact hsees.ipi
  · rw [frames_step, if_neg hc.symm]
    exact h.third
  · rw [apply_fifo, setFrames_fifo, h.fifo]
    exact hsees.fifo
  · rw [apply_fifo, setFrames_fifo, hsees.sync]
    exact h.sync
  · rw [apply_fifo, setFrames_fifo, h.sink]
    exact hsees.sink

variable {frame : Frame 3 Bool} {b : List (Frame 3 Bool)} {outcome : Outcome 3 Bool}

theorem send (h : Spin s (frame :: b) receiver mask q sink) (e : Effect 3 Bool)
    (hcode : s.codeStep 0 frame = some (outcome, e)) (hframes : s.proceed 0 b outcome = frames)
    (hsees : Sees e mask mask' q q' sink sink') : ∃ s', Spin s' frames receiver mask' q' sink' := by
  have hstep := stepFrames_run h.sender hcode
  rw [hframes] at hstep
  exact h.step 0 (by decide) .run e hstep hsees

theorem receive (h : Spin s sender (frame :: b) mask q sink) (e : Effect 3 Bool)
    (hcode : s.codeStep 1 frame = some (outcome, e)) (hframes : s.proceed 1 b outcome = frames)
    (hsees : Sees e mask mask' q q' sink sink') : ∃ s', Spin s' sender frames mask' q' sink' := by
  have hstep := stepFrames_run h.receiver hcode
  rw [hframes] at hstep
  exact h.step 1 (by decide) .run e hstep hsees

theorem receiveQuiet (h : Spin s sender (frame :: b) mask q sink)
    (hcode : s.codeStep 1 frame = some (outcome, .nothing))
    (hframes : s.proceed 1 b outcome = frames) : ∃ s', Spin s' sender frames mask q sink :=
  h.receive .nothing hcode hframes (sees_nothing mask q sink)

end Spin

variable {s : State 3 Bool} {q sink : Fifo 3 Bool}

/-- Cpu 0 queues a message for cpu 1. -/
theorem spin_queue (h : Spin s [] receiver mask q sink) (kind : SendKind) (hkind : kind ≠ .nowait)
    (f : Bool) (hroom : q.fill ≤ 16) :
    ∃ s' k, Spin s' [.send ⟨kind, 1, .call f⟩ (.mark k)] receiver mask (sent kind f q) sink := by
  obtain ⟨s₁, h₁⟩ : ∃ s', Spin s' [.send ⟨kind, 1, .call f⟩ .start] receiver mask q sink := by
    have hstep : s.stepFrames 0 (.request kind 1 f) = _ := stepFrames_choose h.sender (by simp)
    exact h.step 0 (by decide) _ .nothing hstep (sees_nothing _ _ _)
  obtain ⟨s₂, h₂⟩ : ∃ s', Spin s' [.send ⟨kind, 1, .call f⟩ .write] receiver mask q sink := by
    have hcode : s₁.codeStep 0 (.send ⟨kind, 1, .call f⟩ .start) =
        some (.goto (.send ⟨kind, 1, .call f⟩ .write), .nothing) := by
      rw [codeStep, sendStep, if_neg (by simp), if_neg hkind, if_neg]
      change ¬ (s₁.fifo 1 (some 0)).fill > _
      rw [h₁.fifo]
      exact not_lt.mpr hroom
    exact h₁.send .nothing hcode rfl (sees_nothing _ _ _)
  obtain ⟨s₃, h₃⟩ : ∃ s', Spin s' [.send ⟨kind, 1, .call f⟩ .bump] receiver mask
      (q.write (.call f)) sink :=
    h₂.send (.write 1 (some 0) (.call f)) rfl rfl (sees (by simp) rfl rfl fun _ => rfl)
  obtain ⟨s₄, h₄⟩ := h₃.send (.bump 1 (some 0) ⟨.call f, kind⟩) rfl rfl
    (sees (by simp) rfl rfl fun _ => rfl)
  exact ⟨s₄, _, h₄⟩

theorem spin_send (h : Spin s [] receiver {0} q sink) (hlevel : q.windex = q.rindex) :
    ∃ s', Spin s' [] receiver {0} (sent .passive false q) sink := by
  have hfill : q.fill = 0 := by
    rw [Fifo.fill, hlevel, BitVec.sub_self, BitVec.toInt_zero]
  obtain ⟨s₁, k, h₁⟩ := spin_queue h .passive (by decide) false (by omega)
  obtain ⟨s₂, h₂⟩ : ∃ s', Spin s' [.send ⟨.passive, 1, .call false⟩ (.leave k)] receiver {0}
      (sent .passive false q) sink :=
    h₁.send (.mark 1 0) rfl rfl ⟨by simp, by decide, rfl, rfl, rfl, rfl, fun _ => rfl⟩
  exact h₂.send (.ticket 0 ⟨1, (s₂.fifo 1 (some 0)).windex, k⟩) rfl rfl
    (sees (by simp) rfl rfl fun _ => rfl)

/-- The FIFO after one more message has been queued and started. -/
def roundFifo (q : Fifo 3 Bool) : Fifo 3 Bool :=
  ((sent .passive false q).take (.call false)).complete q.started.length

theorem roundFifo_level (hlevel : q.windex = q.rindex) :
    (roundFifo q).windex = (roundFifo q).rindex := by
  change q.windex + 1 = q.rindex + 1
  rw [hlevel]

/-- The pass that has cached the write index behind one more message. -/
abbrev ahead (q : Fifo 3 Bool) (pc : CorePc 3 Bool) : Frame 3 Bool :=
  .core (some 0) (q.windex + 1) (q.queued.length + 1) pc

variable {wi : BitVec 32} {snap : ℕ}

theorem spin_pass
    (h : Spin s [] (inner wi snap) {0} (sent .passive false q) sink)
    (hlevel : q.windex = q.rindex) :
    ∃ s' wi' snap', Spin s' [] (inner wi' snap') {0} (roundFifo q) sink := by
  have hone : q.rindex + 1 - q.rindex = 1 := by
    rw [BitVec.add_comm, BitVec.add_sub_cancel]
  obtain ⟨s₁, h₁⟩ : ∃ s', Spin s' []
      (.process false (.scan {0}) :: .send sinkReq .test :: outer) {0} _ sink := by
    have hcode : s.codeStep 1 (.core (some 0) wi snap .exit) = some (.give true, .nothing) := by
      rw [codeStep, coreStep, h.fifo]
      have hne : q.rindex ≠ q.windex + 1 := by
        rw [hlevel]
        intro heq
        rw [← heq, BitVec.sub_self] at hone
        exact absurd hone (by decide)
      change some (Outcome.give (decide (q.rindex ≠ q.windex + 1)), _) = _
      rw [decide_eq_true hne]
    exact h.receiveQuiet hcode rfl
  obtain ⟨s₂, h₂⟩ : ∃ s', Spin s' [] (.core (some 0) 0 0 .enter :: loop) {0} _ sink :=
    h₁.receiveQuiet rfl rfl
  obtain ⟨s₃, h₃⟩ : ∃ s', Spin s' [] (ahead q .test :: loop) {0} _ sink := by
    have hcode : s₂.codeStep 1 (.core (some 0) 0 0 .enter) =
        some (.goto (ahead q .test), .nothing) := by
      rw [codeStep, coreStep, h₂.fifo]
      change some (Outcome.goto (Frame.core (some 0) (q.windex + 1)
        (q.queued ++ [Entry.mk (Msg.call false) .passive]).length .test), _) = _
      rw [length_append, length_singleton]
    exact h₂.receiveQuiet hcode rfl
  obtain ⟨s₄, h₄⟩ : ∃ s', Spin s' [] (ahead q (.taken (.call false)) :: loop) {0} _ sink := by
    have hcode : s₃.codeStep 1 (ahead q .test) =
        some (.goto (ahead q (.taken (.call false))), .nothing) := by
      rw [codeStep, coreStep_more]
      · rw [h₃.fifo]
        change 0 < (q.windex + 1 - q.rindex).toInt
        rw [hlevel, hone]
        decide
      · rw [h₃.fifo]
        change update q.info (Fifo.slot q.windex) _ (Fifo.slot q.rindex) = _
        rw [hlevel, update_self]
    exact h₃.receiveQuiet hcode rfl
  obtain ⟨s₅, h₅⟩ : ∃ s', Spin s' []
      (.function false 0 :: ahead q (.running q.started.length) :: loop) {0}
      ((sent .passive false q).take (.call false)) sink := by
    refine h₄.receive (.take 1 (some 0) (.call false)) rfl ?_ (sees (by simp) rfl rfl fun _ => rfl)
    rw [h₄.fifo]
    rfl
  obtain ⟨s₆, h₆⟩ : ∃ s', Spin s' [] (ahead q (.running q.started.length) :: loop) {0} _ sink := by
    have hstep : s₅.stepFrames 1 .finish = _ := stepFrames_choose h₅.receiver (by simp)
    exact h₅.step 1 (by decide) _ .nothing hstep (sees_nothing _ _ _)
  obtain ⟨s₇, h₇⟩ : ∃ s', Spin s' [] (ahead q .test :: loop) {0} (roundFifo q) sink :=
    h₆.receive (.complete 1 (some 0) q.started.length) rfl rfl (sees (by simp) rfl rfl fun _ => rfl)
  obtain ⟨s₈, h₈⟩ : ∃ s', Spin s' []
      (inner (q.windex + 1) (q.queued.length + 1)) {0} (roundFifo q) sink := by
    have hcode : s₇.codeStep 1 (ahead q .test) = some (.goto (ahead q .exit), .nothing) := by
      rw [codeStep, coreStep_done]
      rw [h₇.fifo]
      change (q.windex + 1 - (q.rindex + 1)).toInt ≤ 0
      rw [hlevel, BitVec.sub_self]
      decide
    exact h₇.receiveQuiet hcode rfl
  exact ⟨s₈, _, _, h₈⟩

/-- A FIFO that has been used and has nothing left. -/
structure Level (q : Fifo 3 Bool) (k : ℕ) : Prop where
  queued : q.queued.length = k
  started : q.started = replicate k (.call false)
  index : q.windex = q.rindex
  used : q.info 0 = some (.call false)

theorem Level.round (h : Level q k) : Level (roundFifo q) (k + 1) := by
  constructor
  · change (q.queued ++ [_]).length = k + 1
    rw [length_append, h.queued, length_singleton]
  · change q.started ++ [_] = _
    rw [h.started, replicate_succ']
  · exact roundFifo_level h.index
  · change update q.info (Fifo.slot q.windex) _ 0 = _
    rw [update_apply]
    split_ifs
    · rfl
    · exact h.used

theorem spin_rounds (h : Spin s [] (inner wi snap) {0} q sink) (hq : Level q k) (rounds : ℕ) :
    ∃ s' wi' snap' q', Spin s' [] (inner wi' snap') {0} q' sink ∧ Level q' (k + rounds) := by
  induction rounds with
  | zero => exact ⟨s, wi, snap, q, h, hq⟩
  | succ rounds ih =>
    obtain ⟨s₁, wi₁, snap₁, q₁, h₁, hq₁⟩ := ih
    obtain ⟨s₂, h₂⟩ := spin_send h₁ hq₁.index
    obtain ⟨s₃, wi₃, snap₃, h₃⟩ := spin_pass h₂ hq₁.index
    exact ⟨s₃, wi₃, snap₃, roundFifo q₁, h₃, hq₁.round⟩

section Unwind

variable {s : State 3 Bool} {sender b : List (Frame 3 Bool)} {mask : Finset (Fin 3)}
  {q sink : Fifo 3 Bool}

theorem spin_exit
    (h : Spin s sender (.core (some 0) wi snap .exit :: .process false (.fifo {0} 0) :: b)
      mask q sink) (hlevel : q.windex = q.rindex) :
    ∃ s', Spin s' sender (.process false .sync :: b) mask q sink := by
  obtain ⟨s₁, h₁⟩ : ∃ s', Spin s' sender
      (.process false (.scan (({0} : Finset (Fin 3)).erase 0)) :: b) mask q sink := by
    have hcode : s.codeStep 1 (.core (some 0) wi snap .exit) = some (.give false, .nothing) := by
      rw [codeStep, coreStep, h.fifo, hlevel, decide_eq_false (by simp)]
    exact h.receiveQuiet hcode rfl
  exact h₁.receiveQuiet rfl rfl

theorem spin_sync (h : Spin s sender (.process false .sync :: b) mask q sink) :
    ∃ s', Spin s' sender (.process false .recheck :: b) mask q sink := by
  obtain ⟨s₁, h₁⟩ : ∃ s', Spin s' sender
      (.core none 0 0 .enter :: .process false .syncing :: b) mask q sink := by
    have hcode : s.codeStep 1 (.process false .sync) =
        some (.call (.process false .syncing) (.core none 0 0 .enter), .nothing) := by
      rw [codeStep, processStep, if_neg (by simp)]
    exact h.receiveQuiet hcode rfl
  obtain ⟨s₂, h₂⟩ : ∃ s', Spin s' sender (.core none 0 (s₁.fifo 1 none).queued.length .test ::
        .process false .syncing :: b) mask q sink := by
    refine h₁.receiveQuiet rfl ?_
    rw [h₁.sync.1]
    rfl
  obtain ⟨s₃, h₃⟩ : ∃ s', Spin s' sender (.core none 0 (s₁.fifo 1 none).queued.length .exit ::
        .process false .syncing :: b) mask q sink := by
    have hcode : s₂.codeStep 1 (.core none 0 (s₁.fifo 1 none).queued.length .test) =
        some (.goto (.core none 0 (s₁.fifo 1 none).queued.length .exit), .nothing) := by
      rw [codeStep, coreStep_done]
      rw [h₂.sync.2]
      decide
    exact h₂.receiveQuiet hcode rfl
  have hcode : s₃.codeStep 1 (.core none 0 (s₁.fifo 1 none).queued.length .exit) =
      some (.give false, .nothing) := by
    rw [codeStep, coreStep, h₃.sync.1, h₃.sync.2]
    rfl
  exact h₃.receiveQuiet hcode rfl

theorem spin_release {frame : Bool} (h : Spin s sender (.process frame .recheck :: b) ∅ q sink) :
    ∃ s', Spin s' sender b ∅ q sink := by
  obtain ⟨s₁, h₁⟩ : ∃ s', Spin s' sender (.process frame .release :: b) ∅ q sink := by
    have hcode : s.codeStep 1 (.process frame .recheck) =
        some (.goto (.process frame .release), .nothing) := by
      rw [codeStep, processStep, h.mask]
      rfl
    exact h.receiveQuiet hcode rfl
  obtain ⟨s₂, h₂⟩ : ∃ s', Spin s' sender (.process frame .recheckAfter :: b) ∅ q sink :=
    h₁.receive (.release 1) rfl rfl (sees (by simp) rfl rfl fun _ => rfl)
  have hcode : s₂.codeStep 1 (.process frame .recheckAfter) = some (.ret, .nothing) := by
    rw [codeStep, processStep, h₂.mask]
    rfl
  exact h₂.receiveQuiet hcode rfl

theorem spin_return
    (h : Spin s sender (.core (some 0) wi snap .exit :: .process false (.fifo {0} 0) :: b)
      {0} q sink) (hlevel : q.windex = q.rindex) : ∃ s', Spin s' sender b ∅ q sink := by
  obtain ⟨s₁, h₁⟩ := spin_exit h hlevel
  obtain ⟨s₂, h₂⟩ := spin_sync h₁
  -- The bit that the last send has set asks for one more round.
  obtain ⟨s₃, h₃⟩ : ∃ s', Spin s' sender
      (.process false .read :: b) {0} q sink := by
    have hcode : s₂.codeStep 1 (.process false .recheck) =
        some (.goto (.process false .read), .nothing) := by
      rw [codeStep, processStep, h₂.mask]
      rfl
    exact h₂.receiveQuiet hcode rfl
  obtain ⟨s₄, h₄⟩ : ∃ s', Spin s' sender
      (.process false (.clear {0}) :: b) {0} q sink := by
    refine h₃.receiveQuiet rfl ?_
    rw [h₃.mask]
    rfl
  obtain ⟨s₅, h₅⟩ : ∃ s', Spin s' sender
      (.process false (.scan {0}) :: b) ∅ q sink :=
    h₄.receive (.clear 1 {0}) rfl rfl ⟨by simp, by decide, rfl, rfl, rfl, rfl, fun _ => rfl⟩
  obtain ⟨s₆, h₆⟩ : ∃ s', Spin s' sender
      (.core (some 0) 0 0 .enter :: .process false (.fifo {0} 0) :: b) ∅ q sink :=
    h₅.receiveQuiet rfl rfl
  obtain ⟨s₇, h₇⟩ : ∃ s', Spin s' sender (.core (some 0) q.windex q.queued.length .test ::
        .process false (.fifo {0} 0) :: b) ∅ q sink := by
    refine h₆.receiveQuiet rfl ?_
    rw [h₆.fifo]
    rfl
  obtain ⟨s₈, h₈⟩ : ∃ s', Spin s' sender (.core (some 0) q.windex q.queued.length .exit ::
        .process false (.fifo {0} 0) :: b) ∅ q sink := by
    have hcode : s₇.codeStep 1 (.core (some 0) q.windex q.queued.length .test) =
        some (.goto (.core (some 0) q.windex q.queued.length .exit), .nothing) := by
      rw [codeStep, coreStep_done]
      rw [h₇.fifo, hlevel, BitVec.sub_self]
      decide
    exact h₇.receiveQuiet hcode rfl
  obtain ⟨s₉, h₉⟩ := spin_exit h₈ hlevel
  obtain ⟨s₁₀, h₁₀⟩ := spin_sync h₉
  exact spin_release h₁₀

/-- The loop of the full FIFO is left, the message is queued, and the function
returns to the pass that has called it. -/
theorem spin_leave (h : Spin s [] (.send sinkReq .test :: outer) ∅ q sink) (hroom : sink.fill ≤ 8) :
    ∃ s' sink', Spin s' []
      [.core (some 0) 1 1 (.running 0), .process false (.fifo {0} 0)] ∅ q sink' := by
  obtain ⟨s₁, h₁⟩ : ∃ s', Spin s' [] (.send sinkReq .write :: outer) ∅ q sink := by
    have hcode : s.codeStep 1 (.send sinkReq .test) =
        some (.goto (.send sinkReq .write), .nothing) := by
      rw [codeStep, sendStep, if_neg]
      change ¬ (s.fifo 2 (some 1)).fill > _
      rw [h.sink]
      exact not_lt.mpr hroom
    exact h.receiveQuiet hcode rfl
  obtain ⟨s₂, h₂⟩ : ∃ s', Spin s' [] (.send sinkReq .bump :: outer) ∅ q
      (sink.write (.call false)) :=
    h₁.receive (.write 2 (some 1) (.call false)) rfl rfl (sees (by simp) rfl rfl fun _ => rfl)
  obtain ⟨s₃, h₃⟩ : ∃ s', Spin s' []
      (.send sinkReq (.mark (s₂.fifo 2 (some 1)).queued.length) :: outer) ∅ q
      (sent .norm false sink) :=
    h₂.receive (.bump 2 (some 1) ⟨.call false, .norm⟩) rfl rfl (sees (by simp) rfl rfl fun _ => rfl)
  obtain ⟨s₄, h₄⟩ : ∃ s', Spin s' []
      (.send sinkReq (.signal (s₂.fifo 2 (some 1)).queued.length) :: outer) ∅ q
      (sent .norm false sink) :=
    h₃.receive (.mark 2 1) rfl rfl (sees (by simp) rfl rfl fun _ => rfl)
  obtain ⟨s₅, h₅⟩ : ∃ s', Spin s' []
      (.send sinkReq (.leave (s₂.fifo 2 (some 1)).queued.length) :: outer) ∅ q
      (sent .norm false sink) := by
    have hcode : s₄.codeStep 1 (.send sinkReq (.signal (s₂.fifo 2 (some 1)).queued.length)) =
        some (.goto (.send sinkReq (.leave (s₂.fifo 2 (some 1)).queued.length)), .nothing) := by
      have hbusy : (s₄.cpu sinkReq.target).npoll = true := h₄.npoll
      rw [codeStep, sendStep, if_pos hbusy]
    exact h₄.receiveQuiet hcode rfl
  obtain ⟨s₆, h₆⟩ : ∃ s', Spin s' [] outer ∅ q (sent .norm false sink) :=
    h₅.receive (.ticket 1 ⟨2, (s₅.fifo 2 (some 1)).windex,
      (s₂.fifo 2 (some 1)).queued.length⟩) rfl rfl (sees (by simp) rfl rfl fun _ => rfl)
  obtain ⟨s₇, h₇⟩ : ∃ s', Spin s' []
      [.core (some 0) 1 1 (.running 0), .process false (.fifo {0} 0)] ∅ q
      (sent .norm false sink) := by
    have hstep : s₆.stepFrames 1 .finish = _ := stepFrames_choose h₆.receiver (by simp)
    exact h₆.step 1 (by decide) _ .nothing hstep (sees_nothing _ _ _)
  exact ⟨s₇, _, h₇⟩

/-- The FIFO after a slot has been started for the second time. -/
def staleFifo (q : Fifo 3 Bool) : Fifo 3 Bool :=
  (q.complete 0).take (.call false)

/-- After a whole turn the pass compares its cached index and starts a slot that
holds nothing new. -/
theorem spin_stale (h : Spin s [] [.core (some 0) 1 1 (.running 0), .process false (.fifo {0} 0)]
      ∅ q sink) (hrindex : q.rindex = 0) (hused : q.info 0 = some (.call false)) :
    ∃ s' k, Spin s' [] [.function false 0, .core (some 0) 1 1 (.running k),
      .process false (.fifo {0} 0)] ∅ (staleFifo q) sink := by
  obtain ⟨s₁, h₁⟩ : ∃ s', Spin s' []
      [.core (some 0) 1 1 .test, .process false (.fifo {0} 0)] ∅ (q.complete 0)
      sink :=
    h.receive (.complete 1 (some 0) 0) rfl rfl (sees (by simp) rfl rfl fun _ => rfl)
  obtain ⟨s₂, h₂⟩ : ∃ s', Spin s' []
      [.core (some 0) 1 1 (.taken (.call false)), .process false (.fifo {0} 0)] ∅ (q.complete 0)
      sink := by
    have hcode : s₁.codeStep 1 (.core (some 0) 1 1 .test) =
        some (.goto (.core (some 0) 1 1 (.taken (.call false))), .nothing) := by
      rw [codeStep, coreStep_more]
      · rw [h₁.fifo]
        change 0 < (1 - q.rindex).toInt
        rw [hrindex]
        decide
      · rw [h₁.fifo]
        change q.info (Fifo.slot q.rindex) = some (.call false)
        rw [hrindex]
        exact hused
    exact h₁.receiveQuiet hcode rfl
  obtain ⟨s₃, h₃⟩ := h₂.receive (.take 1 (some 0) (.call false)) rfl rfl
    (sees (by simp) rfl rfl fun _ => rfl)
  exact ⟨s₃, _, h₃⟩

end Unwind

def steps (c : Fin 3) (k : ℕ) : List (Fin 3 × Input 3 Bool) :=
  List.replicate k (c, .run)

/-- The function of a message returns, and the pass that has called it goes on to its
end. -/
def finishPass : List (Fin 3 × Input 3 Bool) :=
  (1, .finish) :: steps 1 2

/-- Cpu 1 fills its FIFO towards cpu 2 and starts the first message of cpu 0. -/
def fillSink : List (Fin 3 × Input 3 Bool) :=
  (List.replicate 17 (passiveSend 1 2 false)).flatten ++
    (passiveSend 0 1 false ++ (1, .process) :: steps 1 6)

/-- The function sends to cpu 2, and cpu 0 sends twice more while cpu 1 is in the loop
of the full FIFO. -/
def enterLoop : List (Fin 3 × Input 3 Bool) :=
  (1, .request .norm 2 false) :: steps 1 5 ++
    (passiveSend 0 1 false ++ (steps 1 6 ++ finishPass)) ++
    (passiveSend 0 1 false ++ (steps 1 5 ++ finishPass))

def makeRoom : List (Fin 3 × Input 3 Bool) :=
  (2, .process) :: steps 2 4 ++ (List.replicate 9 (steps 2 2 ++ (2, .finish) :: steps 2 1)).flatten

structure Observation where
  sender : List (Frame 3 Bool)
  receiver : List (Frame 3 Bool)
  mask : Finset (Fin 3)
  flags : List Bool
  queued : ℕ
  started : List (Msg 3 Bool)
  indices : List (BitVec 32)
  used : Option (Msg 3 Bool)
  sink : ℤ
deriving DecidableEq

def observe (s : State 3 Bool) : Observation where
  sender := (s.cpu 0).frames
  receiver := (s.cpu 1).frames
  mask := (s.cpu 1).ipimask
  flags := [(s.cpu 2).npoll, (s.cpu 1).ipi,
    (s.cpu 2).frames.all fun | .send _ _ => false | _ => true, s.panicked]
  queued := (s.fifo 1 (some 0)).queued.length
  started := (s.fifo 1 (some 0)).started
  indices := [(s.fifo 1 (some 0)).windex, (s.fifo 1 (some 0)).rindex,
    (s.fifo 1 none).windex, (s.fifo 1 none).rindex]
  used := (s.fifo 1 (some 0)).info 0
  sink := (s.fifo 2 (some 1)).fill

theorem exists_spin : ∃ s q sink, Spin s [] (inner 3 3) {0} q sink ∧ Level q 3 ∧ sink.fill ≤ 8 := by
  have hrun : (runEvents (fun _ _ => True) next initial
      (fillSink ++ enterLoop ++ makeRoom)).map observe =
      some ⟨[], inner 3 3, {0}, [true, false, true, false], 3, replicate 3 (.call false),
        [3, 3, 0, 0], some (.call false), 8⟩ := by
    decide +kernel
  have hstart : Runs (fun _ _ => True) (initial : State 3 Bool) := .start rfl
  obtain ⟨s, hreach, hview⟩ := hstart.view hrun
  rw [observe, Observation.mk.injEq] at hview
  obtain ⟨hsender, hreceiver, hmask, hflags, hqueued, hstarted, hindices, hused, hsink⟩ := hview
  simp only [List.cons.injEq, and_true] at hflags hindices
  obtain ⟨hnpoll, hipi, hthird, hpanic⟩ := hflags
  obtain ⟨hwindex, hrindex, hsyncW, hsyncR⟩ := hindices
  refine ⟨s, s.fifo 1 (some 0), s.fifo 2 (some 1), ?_, ?_, ?_⟩
  · refine ⟨hreach, hpanic, hsender, hreceiver, hmask, hnpoll, hipi, ?_, rfl, ⟨hsyncW, hsyncR⟩, rfl⟩
    intro r pc hmem
    exact absurd (all_eq_true.mp hthird _ hmem) (by simp)
  · refine ⟨hqueued, hstarted, ?_, hused⟩
    rw [hwindex, hrindex]
  · rw [hsink]

/-- Once around, cpu 1 has started the first slot for the second time. -/
theorem exists_stale : ∃ s q sink k, Level q (2 ^ 32) ∧ q.windex = 0 ∧
    Spin s [] [.function false 0, .core (some 0) 1 1 (.running k), .process false (.fifo {0} 0)]
      ∅ (staleFifo q) sink := by
  obtain ⟨s₀, q₀, sink, h₀, hq₀, hroom⟩ := exists_spin
  obtain ⟨s₁, wi, snap, q, h₁, hq⟩ := spin_rounds h₀ hq₀ (2 ^ 32 - 3)
  obtain ⟨s₂, h₂⟩ := spin_return h₁ hq.index
  obtain ⟨s₃, sink₃, h₃⟩ := spin_leave h₂ hroom
  have hrindex : q.rindex = 0 := by
    have hr := ((indexed_of_runs h₃.runs).sound 1 (some 0)).rindex
    rw [h₃.fifo, hq.started, length_replicate] at hr
    rw [hr]
    decide
  obtain ⟨s, k, h⟩ := spin_stale h₃ hrindex hq.used
  exact ⟨s, q, sink₃, k, hq, hq.index.trans hrindex, h⟩

end Wrap

/-- Without an assumption on how far the read index runs ahead, a FIFO can start
more messages than were queued in it. -/
theorem not_delivered_after_wrap : ∃ s : State 3 Bool, Runs (fun _ _ => True) s ∧
      ¬ (s.fifo 1 (some 0)).Delivered := by
  obtain ⟨s, q, sink, k, hq, -, h⟩ := Wrap.exists_stale
  refine ⟨s, h.runs, fun hdelivered => ?_⟩
  have hle := hdelivered.order.length_le
  rw [h.fifo] at hle
  change (q.started ++ [_]).length ≤ (q.queued.map _).length at hle
  rw [length_map, length_append, hq.queued, hq.started, length_replicate, length_singleton] at hle
  omega

end Ipiq
end DragonFly
