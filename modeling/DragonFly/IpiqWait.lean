import DragonFly.IpiqOrder
import DragonFly.IpiqWakeup

/-!
# Waiting for an IPI message

A pass copies the read index to `ip_xindex` whenever a message function returns, and
`lwkt_wait_ipiq` returns when that index has reached its sequence number.  A function
that processes messages while it runs may start later ones of its own FIFO.  When one
of them returns, the copied index has already run over the function below it.
-/

namespace DragonFly
namespace Ipiq

open List State

variable {n : ℕ} {F : Type}

/-- The frame is a pass over the FIFO that has called a function. -/
def Frame.running (source : Option (Fin n)) : Frame n F → Bool
  | .core source' _ _ (.running _) => source' = source
  | _ => false

/-- A pass that is about to call a function finds no function of the same FIFO that
still runs on its cpu. -/
def State.Unnested (s : State n F) (event : Fin n × Input n F) : Prop :=
  match (s.cpu event.1).frames with
  | .core source _ _ (.taken _) :: b => ∀ frame ∈ b, frame.running source = false
  | _ => True

instance (s : State n F) : (event : Fin n × Input n F) → Decidable (s.Unnested event)
  | (c, input) => by
    unfold State.Unnested
    split <;> infer_instance

/-- What a pass knows of the messages started and of those it has seen queued. -/
def CorePc.Holds (started snap : ℕ) : CorePc n F → Prop
  | .enter => True
  | .taken _ => started < snap
  | .running k => k + 1 = started ∧ started ≤ snap
  | _ => started ≤ snap

/-- The sequence number of a message that cpu `c` has sent. -/
def State.Sent (s : State n F) (c target : Fin n) (seq : BitVec 32) (k : ℕ) : Prop :=
  target ≠ c ∧ seq = serial 32 (k + 1) ∧ k < (s.fifo target (some c)).queued.length

/-- The functions that have returned are those before the copied index, and one that
has been started may be missing among them while it runs. -/
def Fifo.Reached (q : Fifo n F) (frames : List (Frame n F)) (source : Option (Fin n)) : Prop :=
  ∃ k, q.xindex = serial 32 k ∧ q.finished = Finset.range k ∧
    (k = q.started.length ∨ k + 1 = q.started.length ∧
      ∃ frame ∈ frames, frame.running source = true)

structure State.Timely (s : State n F) : Prop where
  covered : s.Covered
  ordered : s.Ordered
  passes : ∀ c source wi snap pc, .core source wi snap pc ∈ (s.cpu c).frames →
    pc.Holds (s.fifo c source).started.length snap
  reached : ∀ d source, (s.fifo d source).Reached (s.cpu d).frames source
  tickets : ∀ c ticket, ticket ∈ (s.cpu c).tickets →
    s.Sent c ticket.target ticket.seq ticket.position
  waiting : ∀ c target seq k returned, .wait target seq k returned ∈ (s.cpu c).frames →
    s.Sent c target seq k ∧ (returned = true → k ∈ (s.fifo target (some c)).finished)

/-- A pass below the top of a stack has called a function. -/
theorem core_below {b : List (Frame n F)} (hchain : List.IsChain Calls (frame :: b))
    (hmem : .core source wi snap pc ∈ b) : ∃ k, pc = .running k := by
  induction b generalizing frame with
  | nil => cases hmem
  | cons x b ih =>
    rw [isChain_cons_cons] at hchain
    rcases mem_cons.mp hmem with rfl | hmem
    · obtain ⟨hcalls, -⟩ := hchain
      cases hcalls
      exact ⟨_, rfl⟩
    · exact ih hchain.2 hmem

/-- A function that runs below the top of a stack still runs after a move. -/
theorem Shape.running_mem {before after : List (Frame n F)} (hshape : Shape before after)
    (hmem : frame ∈ before) (hrun : frame.running source = true) :
    (∃ b, before = frame :: b) ∨ frame ∈ after := by
  cases hshape with
  | idle => cases hmem
  | goto | inline | ret | call =>
    rcases mem_cons.mp hmem with rfl | hmem
    · exact .inl ⟨_, rfl⟩
    · exact .inr (by simp [hmem])
  | exit =>
    rcases mem_cons.mp hmem with rfl | hmem
    · exact .inl ⟨_, rfl⟩
    · rcases mem_cons.mp hmem with rfl | hmem
      · cases hrun
      · exact .inr (mem_cons_of_mem _ hmem)

variable {target : Fin n} {seq : BitVec 32} {k : ℕ}

section Step

variable {s : State n F} {c : Fin n} {before after b : List (Frame n F)}
  {e : Effect n F} (hmove : Move s c before after e)
  (hchain : List.IsChain Calls before)
include hmove hchain

/-- A move starts a function of the FIFO, records that one has returned, or leaves both
records and the functions that run as they are. -/
theorem Move.progress (d : Fin n) (source : Option (Fin n)) (q : Fifo n F) :
    (d = c ∧ ∃ wi snap m b, before = .core source wi snap (.taken m) :: b ∧ after = m.frame ::
        .core source wi snap (.running (s.fifo c source).started.length) :: b ∧
      e.onFifo d source q = q.take m) ∨
    (d = c ∧ ∃ wi snap k b, before = .core source wi snap (.running k) :: b ∧
      e.onFifo d source q = q.complete k) ∨
    ((e.onFifo d source q).started = q.started ∧ (e.onFifo d source q).xindex = q.xindex ∧
      (e.onFifo d source q).finished = q.finished) ∧
    (d = c → ∀ frame ∈ before, frame.running source = true → frame ∈ after) := by
  have hshape := hmove.shape hchain
  cases hmove
  case taken =>
    rw [Effect.onFifo]
    split_ifs with heq
    · obtain ⟨rfl, rfl⟩ := heq
      exact .inl ⟨rfl, _, _, _, _, rfl, rfl, rfl⟩
    · refine .inr (.inr ⟨⟨rfl, rfl, rfl⟩, fun _ frame hmem hrun => ?_⟩)
      rcases hshape.running_mem hmem hrun with ⟨b, htop⟩ | hafter
      · cases htop
        cases hrun
      · exact hafter
  case complete =>
    rw [Effect.onFifo]
    split_ifs with heq
    · obtain ⟨rfl, rfl⟩ := heq
      exact .inr (.inl ⟨rfl, _, _, _, _, rfl, rfl⟩)
    · refine .inr (.inr ⟨⟨rfl, rfl, rfl⟩, fun hd frame hmem hrun => ?_⟩)
      rcases hshape.running_mem hmem hrun with ⟨b, htop⟩ | hafter
      · cases htop
        exact absurd ⟨hd, (of_decide_eq_true hrun).symm⟩ heq
      · exact hafter
  all_goals
    refine .inr (.inr ⟨?_, fun _ frame hmem hrun => ?_⟩)
    · first
        | exact ⟨rfl, rfl, rfl⟩
        | rw [Effect.onFifo]
          split_ifs <;> exact ⟨rfl, rfl, rfl⟩
    · rcases hshape.running_mem hmem hrun with ⟨b, htop⟩ | hafter
      · cases htop <;> cases hrun
      · exact hafter

/-- A wait on the stack was there before, has been called with a sequence number that
a send has returned, or has just found this number reached. -/
theorem Move.wait_mem (hmem : .wait target seq k returned ∈ after) :
    .wait target seq k returned ∈ before ∨
      (returned = false ∧ ⟨target, seq, k⟩ ∈ (s.cpu c).tickets) ∨
      (.wait target seq k false ∈ before ∧
        (target = c ∨ 0 ≤ ((s.fifo target (some c)).xindex - seq).toInt)) := by
  cases hmove
  case waitDone hdone =>
    rcases mem_cons.mp hmem with heq | hmem
    · cases heq
      exact .inr (.inr ⟨mem_cons_self, hdone⟩)
    · exact .inl (mem_cons_of_mem _ hmem)
  case functionWait hticket | heldWait hticket | idleWait hticket =>
    rcases mem_cons.mp hmem with heq | hmem
    · cases heq
      exact .inr (.inl ⟨rfl, hticket⟩)
    · exact .inl hmem
  case exit b =>
    cases b with
    | nil => cases hmem
    | cons x b =>
      rcases mem_cons.mp hmem with heq | hmem
      · rcases core_caller (isChain_cons_cons.mp hchain).1 with
          ⟨a, fr, mask, -, rfl⟩ | ⟨fr, -, rfl⟩ <;> cases heq
      · exact .inl (.tail _ (.tail _ hmem))
  case sendSelf r _ _ _ =>
    cases hm : r.msg <;> rw [hm] at hmem <;> rcases hmem with _ | ⟨_, hmem⟩ <;>
      exact .inl (.tail _ hmem)
  case taken m _ =>
    cases m <;> rcases hmem with _ | ⟨_, _ | ⟨_, hmem⟩⟩ <;> exact .inl (.tail _ hmem)
  all_goals first
    | exact .inl (.tail _ hmem)
    | rcases hmem with _ | ⟨_, hmem⟩
      first
        | exact .inl (.tail _ hmem)
        | exact .inl hmem
        | rcases hmem with _ | ⟨_, hmem⟩
          exact .inl (.tail _ hmem)

end Step

namespace State

theorem ticket_mem {s : State n F} {after : List (Frame n F)}
    (hmem : ticket ∈ (((s.setFrames c after).apply e).cpu x).tickets) :
    ticket ∈ (s.cpu x).tickets ∨ e = .ticket x ticket := by
  have hframes : ((s.setFrames c after).cpu x).tickets = (s.cpu x).tickets := by
    rw [setFrames_cpu]
    split_ifs with hx
    · rw [hx]
    · rfl
  rw [← hframes]
  cases e <;> simp only [apply, setCpu, setFifo, setCs, Function.update_apply] at hmem <;>
    try exact .inl hmem
  case ticket d new =>
    split_ifs at hmem with hx
    · subst hx
      rcases mem_cons.mp hmem with rfl | hmem
      · exact .inr rfl
      · exact .inl hmem
    · exact .inl hmem
  all_goals
    split_ifs at hmem with hx
    · exact .inl (hx ▸ hmem)
    · exact .inl hmem

theorem timely_initial : (initial : State n F).Timely := by
  constructor
  · exact covered_initial
  · exact ordered_initial
  · intro c source wi snap pc hmem
    cases hmem
  · intro d source
    exact ⟨0, rfl, rfl, .inl rfl⟩
  · intro c ticket hmem
    cases hmem
  · intro c target seq k returned hmem
    cases hmem

namespace Timely

variable {s : State n F} {c : Fin n} {after : List (Frame n F)} {e : Effect n F}
  {input : Input n F} (h : s.Timely) (hmove : Move s c (s.cpu c).frames after e)
include h

omit hmove in
theorem near : s.Near (c, input) := by
  rw [Near]
  split
  · rename_i source wi snap b hframes
    have hpass : _ ≤ snap := h.passes c source wi snap .test (by rw [hframes]; exact mem_cons_self)
    exact hpass.trans (Nat.le_add_right _ _)
  · trivial

include hmove

theorem passes_move (hflat : s.Unnested (c, input))
    (x : Fin n) (source : Option (Fin n)) (wi : BitVec 32) (snap : ℕ) (pc : CorePc n F)
    (hmem : .core source wi snap pc ∈ (((s.setFrames c after).apply e).cpu x).frames) :
    pc.Holds (e.onFifo x source (s.fifo x source)).started.length snap := by
  rw [frames_step] at hmem
  split_ifs at hmem with hx
  swap
  · rw [hmove.started_of_ne hx]
    exact h.passes x source wi snap pc hmem
  subst hx
  have hchain := h.ordered.indexed.chained x
  have hpass := h.passes x
  have hcached := h.ordered.cached x
  rw [Unnested] at hflat
  generalize (s.cpu x).frames = before at hmove hchain hpass hcached hflat
  rcases hmove.progress hchain x source (s.fifo x source) with
    ⟨-, wi', snap', m, b, rfl, rfl, hfifo⟩ | hrest
  · rw [hfifo]
    rcases mem_cons.mp hmem with heq | hmem
    · cases m <;> cases heq
    rcases mem_cons.mp hmem with heq | hbelow
    · cases heq
      have hlt : _ < snap := hpass source wi snap (.taken m) mem_cons_self
      simpa [CorePc.Holds, Fifo.take] using hlt
    · obtain ⟨k, rfl⟩ := core_below hchain hbelow
      exact absurd (hflat _ hbelow) (by simp [Frame.running])
  · have hsame : (e.onFifo x source (s.fifo x source)).started = (s.fifo x source).started := by
      rcases hrest with ⟨-, _, _, _, _, -, hfifo⟩ | ⟨⟨hsame, -⟩, -⟩
      · rw [hfifo]
        rfl
      · exact hsame
    rw [hsame]
    rcases (hmove.shape hchain).mem hmem with hold | hfresh | hkind | ⟨top, b, rfl, hkind, hafter⟩
    · exact hpass _ _ _ _ hold
    · cases hfresh
      trivial
    · cases hkind
    · cases top <;> cases hkind
      cases hmove with
      | enter =>
        rcases hafter with hafter | ⟨z, hafter⟩ <;> cases hafter
        have hle := (h.ordered.order x source).length_le
        rw [length_map] at hle
        exact hle
      | testMore hmore hslot =>
        rcases hafter with hafter | ⟨z, hafter⟩ <;> cases hafter
        have hle : _ ≤ snap := hpass _ _ _ _ mem_cons_self
        refine lt_of_le_of_ne hle fun heq => ?_
        rw [(hcached _ _ _ _ mem_cons_self (by simp)).1,
          (h.ordered.indexed.sound x source).rindex, heq, BitVec.sub_self] at hmore
        cases hmore
      | taken =>
        rw [Effect.onFifo] at hsame
        simp [Fifo.take] at hsame
      | exit =>
        rcases hafter with hafter | ⟨z, hafter⟩ <;>
          · have hlength := congrArg List.length hafter
            simp only [length_modifyHead, length_cons] at hlength
            omega
      | _ =>
        rcases hafter with hafter | ⟨z, hafter⟩ <;> cases hafter
        have hold := hpass _ _ _ _ mem_cons_self
        first
          | exact hold
          | exact hold.2

theorem reached_move (hflat : s.Unnested (c, input)) (d : Fin n) (source : Option (Fin n)) :
    (e.onFifo d source (s.fifo d source)).Reached
      (((s.setFrames c after).apply e).cpu d).frames source := by
  obtain ⟨k, hxindex, hfinished, hk⟩ := h.reached d source
  have hsound := h.ordered.indexed.sound d source
  have hchain := h.ordered.indexed.chained c
  rw [Unnested] at hflat
  rw [frames_step]
  rcases hmove.progress hchain d source (s.fifo d source) with
    ⟨rfl, wi, snap, m, b, hbefore, rfl, hfifo⟩ |
    ⟨rfl, wi, snap, p, b, hbefore, hfifo⟩ | ⟨⟨hstarted, hx, hf⟩, hkept⟩
  · rw [hbefore] at hflat
    have hidle : k = (s.fifo d source).started.length := by
      rcases hk with hk | ⟨-, frame, hmem, hrun⟩
      · exact hk
      · rw [hbefore] at hmem
        rcases mem_cons.mp hmem with rfl | hmem
        · cases hrun
        · rw [hflat frame hmem] at hrun
          cases hrun
    rw [hfifo, if_pos rfl]
    refine ⟨k, hxindex, hfinished, .inr ⟨?_, _, mem_cons_of_mem _ mem_cons_self, ?_⟩⟩
    · simp [Fifo.take, hidle]
    · simp [Frame.running]
  · obtain ⟨hp, -⟩ := h.passes d source wi snap (.running p) (by rw [hbefore]; exact mem_cons_self)
    rw [hfifo]
    refine ⟨_, hsound.rindex, ?_, .inl rfl⟩
    change insert p (s.fifo d source).finished = _
    rw [hfinished, ← hp]
    ext i
    simp only [Finset.mem_insert, Finset.mem_range]
    omega
  · rw [Fifo.Reached, hstarted, hx, hf]
    refine ⟨k, hxindex, hfinished, hk.imp_right fun hk => ⟨hk.1, ?_⟩⟩
    obtain ⟨frame, hmem, hrun⟩ := hk.2
    refine ⟨frame, ?_, hrun⟩
    split_ifs with hd
    · subst hd
      exact hkept rfl frame hmem hrun
    · exact hmem

theorem finished_subset (d : Fin n) (source : Option (Fin n)) :
    (s.fifo d source).finished ⊆ (e.onFifo d source (s.fifo d source)).finished := by
  rcases hmove.progress (h.ordered.indexed.chained c) d source (s.fifo d source) with
    ⟨-, _, _, _, _, -, -, hfifo⟩ | ⟨-, _, _, _, _, -, hfifo⟩ | ⟨⟨-, -, hsame⟩, -⟩
  · rw [hfifo]
    exact subset_rfl
  · rw [hfifo]
    exact Finset.subset_insert _ _
  · rw [hsame]

omit h hmove in
theorem sent_step (hsent : s.Sent x target seq k) :
    ((s.setFrames c after).apply e).Sent x target seq k := by
  obtain ⟨hne, hseq, hlt⟩ := hsent
  refine ⟨hne, hseq, hlt.trans_le ?_⟩
  rw [apply_fifo, setFrames_fifo]
  exact (e.queued_onFifo _ _ _).length_le

theorem ticket_move (he : e = .ticket x ticket) :
    s.Sent x ticket.target ticket.seq ticket.position := by
  have hapart := h.covered.apart c
  have hready := h.ordered.indexed.ready c
  generalize (s.cpu c).frames = before at hmove hapart hready
  cases hmove <;> cases he
  rename_i r k hkind
  have hk : k + 1 = (s.fifo r.target (some c)).queued.length := hready r (.leave k) after rfl
  refine ⟨hapart r (.leave k) mem_cons_self (by simp), ?_, ?_⟩
  · rw [hk]
    exact (h.ordered.indexed.sound r.target (some c)).windex
  · exact hk ▸ Nat.lt_succ_self k

omit hmove in
/-- A sequence number that the copied index has reached belongs to a function that has
returned. -/
theorem finished_of_reached
    (hsent : s.Sent c target seq k) (hdone : 0 ≤ ((s.fifo target (some c)).xindex - seq).toInt) :
    k ∈ (s.fifo target (some c)).finished := by
  obtain ⟨-, hseq, hqueued⟩ := hsent
  obtain ⟨j, hxindex, hfinished, hj⟩ := h.reached target (some c)
  have hroom := (h.ordered.indexed.sound target (some c)).room
  rw [maxCpuFifo] at hroom
  rw [hfinished, Finset.mem_range]
  by_contra hle
  have hdiff : (serial 32 j - serial 32 (k + 1)).toInt = (j : ℤ) - (k + 1 : ℕ) := by
    apply Serial.toInt_sub
    · norm_num
      omega
    · norm_num
      omega
  rw [hxindex, hseq, hdiff] at hdone
  omega

theorem waiting_move (x target : Fin n) (seq : BitVec 32) (k : ℕ) (returned : Bool)
    (hmem : .wait target seq k returned ∈ (((s.setFrames c after).apply e).cpu x).frames) :
    s.Sent x target seq k ∧ (returned = true → k ∈ (s.fifo target (some x)).finished) := by
  rw [frames_step] at hmem
  split_ifs at hmem with hx
  · subst hx
    rcases hmove.wait_mem (h.ordered.indexed.chained x) hmem with
      hold | ⟨hreturned, hticket⟩ | ⟨hold, hdone⟩
    · exact h.waiting x target seq k returned hold
    · refine ⟨h.tickets x _ hticket, fun htrue => ?_⟩
      rw [hreturned] at htrue
      cases htrue
    · obtain ⟨hsent, -⟩ := h.waiting x target seq k false hold
      exact ⟨hsent, fun _ => h.finished_of_reached hsent (hdone.resolve_left hsent.1)⟩
  · exact h.waiting x target seq k returned hmem

omit hmove in
theorem next {s' : State n F} (hflat : s.Unnested (c, input))
    (hnext : s.next (c, input) = some s') : s'.Timely := by
  have hcovered := h.covered.next hnext
  have hordered := h.ordered.next h.near hnext
  obtain ⟨after, e, hmove, rfl⟩ := move_of_next hnext
  constructor
  · exact hcovered
  · exact hordered
  · intro x source wi snap pc hmem
    rw [apply_fifo, setFrames_fifo]
    exact h.passes_move hmove hflat x source wi snap pc hmem
  · intro d source
    rw [apply_fifo, setFrames_fifo]
    exact h.reached_move hmove hflat d source
  · intro x ticket hmem
    rcases ticket_mem hmem with hold | he
    · exact sent_step (h.tickets x ticket hold)
    · exact sent_step (h.ticket_move hmove he)
  · intro x target seq k returned hmem
    obtain ⟨hsent, hfinished⟩ := h.waiting_move hmove x target seq k returned hmem
    refine ⟨sent_step hsent, fun htrue => ?_⟩
    rw [apply_fifo, setFrames_fifo]
    exact h.finished_subset hmove _ _ (hfinished htrue)

end Timely

end State

/-- As long as no function of a FIFO is called on top of another one, a wait for a
message returns after the function of this message has returned. -/
theorem finished_of_wait {s : State n F} (h : Runs State.Unnested s)
    {c target : Fin n} {seq : BitVec 32} {position : ℕ} {b : List (Frame n F)}
    (hframes : (s.cpu c).frames = .wait target seq position true :: b) :
    position ∈ (s.fifo target (some c)).finished ∧ (s.fifo target (some c)).started <+:
        (s.fifo target (some c)).queued.map Entry.msg := by
  have htimely : s.Timely := by
    apply h.invariant State.Timely
    · intro start hstart
      rw [hstart]
      exact timely_initial
    · intro s event s' hs hallow hnext
      exact hs.next hallow hnext
  refine ⟨(htimely.waiting c target seq position true ?_).2 rfl, ?_⟩
  · rw [hframes]
    exact mem_cons_self
  · exact htimely.ordered.order target (some c)

theorem finished_after_wait :
    ∃ s : State 2 Bool, Runs State.Unnested s ∧
      (s.cpu 0).frames = [.wait 1 1 0 true] ∧ 0 ∈ (s.fifo 1 (some 0)).finished := by
  have hrun : ((runEvents State.Unnested next (initial : State 2 Bool)
      ((0, .request .norm 1 true) :: List.replicate 7 (0, .run) ++
        (1, .process) :: List.replicate 6 (1, .run) ++ [(1, .finish), (1, .run)] ++
        [(0, .wait ⟨1, 1, 0⟩), (0, .run)])).map fun s => (s.cpu 0).frames) =
      some [.wait 1 1 0 true] := by
    decide +kernel
  have hstart : Runs State.Unnested (initial : State 2 Bool) := .start rfl
  obtain ⟨s, hreach, hframes⟩ := hstart.view hrun
  exact ⟨s, hreach, hframes, (finished_of_wait hreach hframes).1⟩

/-- The first function that cpu 1 has sent to cpu 0 sends to a full FIFO and processes
messages until there is room.  The second function of cpu 1 runs on top of it and
returns, which ends the wait for the first one. -/
theorem wait_returns_early :
    ∃ s : State 3 Bool, Runs (fun _ _ => True) s ∧ (s.cpu 1).frames = [.wait 0 1 0 true] ∧
      (s.fifo 0 (some 1)).queued[0]? = some ⟨.call true, .norm⟩ ∧
      .function true 1 ∈ (s.cpu 0).frames ∧ 0 ∉ (s.fifo 0 (some 1)).finished := by
  have hrun : ((runEvents (fun _ _ => True) next (initial : State 3 Bool)
      ((List.replicate 17 (passiveSend 0 2 true)).flatten ++
        (1, .request .norm 0 true) :: List.replicate 7 (1, .run) ++
        (0, .process) :: List.replicate 6 (0, .run) ++
        (1, .request .norm 0 false) :: List.replicate 6 (1, .run) ++
        (0, .request .norm 2 true) :: List.replicate 11 (0, .run) ++
        [(0, .finish), (0, .run), (1, .wait ⟨0, 1, 0⟩), (1, .run)])).map fun s =>
          ((s.cpu 1).frames, (s.fifo 0 (some 1)).queued[0]?,
            decide (.function true 1 ∈ (s.cpu 0).frames),
            decide (0 ∈ (s.fifo 0 (some 1)).finished))) =
      some ([.wait 0 1 0 true], some ⟨.call true, .norm⟩, true, false) := by
    decide +kernel
  have hstart : Runs (fun _ _ => True) (initial : State 3 Bool) := .start rfl
  obtain ⟨s, hreach, hview⟩ := hstart.view hrun
  simp only [Prod.mk.injEq, decide_eq_true_eq, decide_eq_false_iff_not] at hview
  exact ⟨s, hreach, hview⟩

end Ipiq
end DragonFly
