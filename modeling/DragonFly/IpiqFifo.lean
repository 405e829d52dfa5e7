import DragonFly.IpiqFrames
import DragonFly.SerialNumber

/-!
# The FIFOs behind the IPI queues

The indices of a FIFO are the lengths of its histories modulo `2 ^ 32`, a sender
that has passed its check finds room for one more entry, and the entries that have
not been taken out are still in their slots.  None of this needs an assumption on
how far the indices have run.
-/

namespace DragonFly
namespace Ipiq

open Function List State Effect

variable {n : ℕ} {F : Type}

namespace Fifo

/-- The indices agree with the histories, and the slots between them hold the
entries that have not been taken out. -/
structure Sound (q : Fifo n F) : Prop where
  windex : q.windex = serial 32 q.queued.length
  rindex : q.rindex = serial 32 q.started.length
  room : q.queued.length ≤ q.started.length + maxCpuFifo
  intact : ∀ k entry, q.started.length ≤ k → q.queued[k]? = some entry →
    q.info (k % maxCpuFifo) = some entry.msg

variable {q : Fifo n F}

theorem slot_serial (k : ℕ) : slot (serial 32 k) = k % maxCpuFifo := by
  rw [slot, serial, BitVec.toNat_ofNat]
  exact Nat.mod_mod_of_dvd k (by decide)

theorem sound_empty : (empty : Fifo n F).Sound := by
  constructor
  · rfl
  · rfl
  · simp [empty]
  · intro k entry _ hk
    simp [empty] at hk

namespace Sound

section

variable (h : q.Sound)
include h

theorem fill_eq (hle : q.started.length ≤ q.queued.length) :
    q.fill = (q.queued.length : ℤ) - q.started.length := by
  have hroom := h.room
  rw [fill, h.windex, h.rindex]
  apply Serial.toInt_sub
  · omega
  · rw [maxCpuFifo] at hroom
    norm_num
    omega

theorem length_lt {j : ℕ} (hpos : 0 < j) (hj : q.fill < j) :
    q.queued.length < q.started.length + j := by
  by_contra hge
  rw [not_lt] at hge
  rw [h.fill_eq (by omega)] at hj
  omega

theorem length_le_of_eq (heq : q.rindex = q.windex) : q.queued.length ≤ q.started.length := by
  have hfill : q.fill < 1 := by
    rw [fill, heq, BitVec.sub_self, BitVec.toInt_zero]
    norm_num
  exact Nat.lt_succ_iff.mp (h.length_lt one_pos hfill)

theorem write (m : Msg n F) (hroom : q.queued.length < q.started.length + maxCpuFifo) :
    (q.write m).Sound := by
  constructor
  · exact h.windex
  · exact h.rindex
  · exact h.room
  · intro k entry hk hentry
    have hlt : k < q.queued.length := by
      obtain ⟨hlt, -⟩ := List.getElem?_eq_some_iff.mp hentry
      exact hlt
    have hne : k % maxCpuFifo ≠ q.queued.length % maxCpuFifo := by
      intro hmod
      have hlow : q.started.length ≤ k := hk
      rw [maxCpuFifo] at hmod hroom
      omega
    have hslot : slot q.windex = q.queued.length % maxCpuFifo := by
      rw [h.windex, slot_serial]
    change update q.info (slot q.windex) (some m) _ = _
    rw [hslot, update_of_ne hne]
    exact h.intact k entry hk hentry

theorem write_info (m : Msg n F) : (q.write m).info (q.queued.length % maxCpuFifo) = some m := by
  change update q.info (slot q.windex) (some m) _ = _
  rw [h.windex, slot_serial, update_self]

theorem bump (entry : Entry n F) (hroom : q.queued.length < q.started.length + maxCpuFifo)
    (hinfo : q.info (q.queued.length % maxCpuFifo) = some entry.msg) : (q.bump entry).Sound := by
  constructor
  · change q.windex + 1 = serial 32 (q.queued ++ [entry]).length
    rw [h.windex, length_append]
    exact Serial.serial_add _ 1
  · exact h.rindex
  · change (q.queued ++ [entry]).length ≤ _
    rw [length_append]
    exact hroom
  · intro k old hk hold
    change (q.queued ++ [entry])[k]? = some old at hold
    change q.info (k % maxCpuFifo) = some old.msg
    obtain hlt | hge := lt_or_ge k q.queued.length
    · rw [getElem?_append_left hlt] at hold
      exact h.intact k old hk hold
    · rw [getElem?_append_right hge, getElem?_singleton] at hold
      split_ifs at hold with hzero
      · have hk' : k = q.queued.length := by omega
        rw [hk', hinfo, ← Option.some.inj hold]

theorem take (m : Msg n F) : (q.take m).Sound := by
  constructor
  · exact h.windex
  · change q.rindex + 1 = serial 32 (q.started ++ [m]).length
    rw [h.rindex, length_append]
    exact Serial.serial_add _ 1
  · have hroom := h.room
    change q.queued.length ≤ (q.started ++ [m]).length + maxCpuFifo
    rw [length_append, length_singleton]
    omega
  · intro k entry hk hentry
    change (q.started ++ [m]).length ≤ k at hk
    rw [length_append, length_singleton] at hk
    exact h.intact k entry (by omega) hentry

theorem complete (position : ℕ) : (q.complete position).Sound :=
  ⟨h.windex, h.rindex, h.room, h.intact⟩

theorem requeue (p : CsPtr n) (hfill : q.fill < maxCpuFifo) :
    ((q.write (.remote2 p)).bump ⟨.remote2 p, .norm⟩).Sound := by
  have hroom := h.length_lt (by decide) hfill
  exact (h.write _ hroom).bump _ hroom (h.write_info _)

end

end Sound

end Fifo

/-- What a send that is about to queue its entry has made sure of, and where it has
queued it. -/
def SendReady (q : Fifo n F) (r : Req n F) : SendPc → Prop
  | .write => q.queued.length < q.started.length + maxCpuFifo
  | .bump => q.queued.length < q.started.length + maxCpuFifo ∧
      q.info (q.queued.length % maxCpuFifo) = some r.msg
  | .mark k | .signal k | .signalIpi k | .leave k => k + 1 = q.queued.length
  | _ => True

/-- The queues of a state and the sends that are about to add to them. -/
structure State.Indexed (s : State n F) : Prop where
  chained : s.Chained
  sound : ∀ d source, (s.fifo d source).Sound
  ready : ∀ c r pc b, (s.cpu c).frames = .send r pc :: b → SendReady (s.fifo r.target (some c)) r pc

variable {frame : Frame n F} {r : Req n F} {pc : SendPc}

theorem sendReady_of_calls (q : Fifo n F) (h : Calls frame (.send r pc)) : SendReady q r pc := by
  cases h
  trivial

theorem sendReady_of_chain {b : List (Frame n F)} (q : Fifo n F)
    (h : List.IsChain Calls (frame :: .send r pc :: b)) : SendReady q r pc := by
  rw [isChain_cons_cons] at h
  exact sendReady_of_calls q h.1

theorem SendReady.take
    {q : Fifo n F} (h : SendReady q r pc) (m : Msg n F) : SendReady (q.take m) r pc := by
  have hlength : (q.take m).started.length = q.started.length + 1 := by
    simp [Fifo.take]
  cases pc with
  | write =>
    change q.queued.length < (q.take m).started.length + maxCpuFifo
    have hroom : q.queued.length < q.started.length + maxCpuFifo := h
    omega
  | bump =>
    constructor
    · change q.queued.length < (q.take m).started.length + maxCpuFifo
      have hroom := h.1
      omega
    · exact h.2
  | _ => exact h

section Step

variable {s : State n F} {c : Fin n} {before after : List (Frame n F)}
  {e : Effect n F}

variable (hmove : Move s c before after e)
include hmove

section

variable (hsound : ∀ d source, (s.fifo d source).Sound)
  (hready : ∀ r pc b, before = .send r pc :: b → SendReady (s.fifo r.target (some c)) r pc)
include hsound hready

theorem Move.sound
    (d : Fin n) (source : Option (Fin n)) : (e.onFifo d source (s.fifo d source)).Sound := by
  have hq := hsound d source
  cases hmove <;> try exact hq
  case write r b =>
      have hroom : SendReady _ r .write := hready r .write b rfl
      rw [onFifo]
      split_ifs with heq
      · obtain ⟨rfl, rfl⟩ := heq
        exact hq.write _ hroom
      · exact hq
  case bump r b =>
      have hroom := hready r .bump b rfl
      rw [onFifo]
      split_ifs with heq
      · obtain ⟨rfl, rfl⟩ := heq
        exact hq.bump _ hroom.1 hroom.2
      · exact hq
  case taken =>
      rw [onFifo]
      split_ifs
      · exact hq.take _
      · exact hq
  case complete =>
      rw [onFifo]
      split_ifs
      · exact hq.complete _
      · exact hq
  case requeue p hroom =>
      rw [onFifo]
      split_ifs with heq
      · obtain ⟨rfl, rfl⟩ := heq
        exact hq.requeue p hroom
      · exact hq

theorem Move.ready
    (hchain : List.IsChain Calls before) {b : List (Frame n F)} (hafter : after = .send r pc :: b) :
    SendReady (e.onFifo r.target (some c) (s.fifo r.target (some c))) r pc := by
  cases hmove with
  | sendNowait hother hkind hroom =>
    cases hafter
    exact (hsound _ _).length_lt (by decide) (by
      rw [maxCpuFifo]
      omega)
  | sendRoom hother hkind hroom =>
    cases hafter
    exact (hsound _ _).length_lt (by decide) (by
      rw [maxCpuFifo]
      omega)
  | loopRoom hroom =>
    cases hafter
    exact (hsound _ _).length_lt (by decide) (by
      rw [maxCpuFifo]
      omega)
  | write =>
    cases hafter
    have hroom : SendReady _ _ .write := hready _ _ _ rfl
    rw [onFifo, if_pos ⟨rfl, rfl⟩]
    exact ⟨hroom, (hsound _ _).write_info _⟩
  | bump =>
    cases hafter
    rw [onFifo, if_pos ⟨rfl, rfl⟩]
    simp [SendReady, Fifo.bump]
  | markPassive | mark | signalBusy | signalFree | signalIpi =>
    cases hafter
    have hplace := hready _ _ _ rfl
    exact hplace
  | exit =>
    rename_i source wi snap below
    cases below with
    | nil => cases hafter
    | cons x below =>
      rw [isChain_cons_cons] at hchain
      cases hchain.1 <;> cases hafter
  | sendSelfPassive | sendRefused | leaveNowait | leave | processReturn | reack
  | requeue | requeuePanic | unlockReturn | waitReturn | functionFinish =>
    subst hafter
    exact sendReady_of_chain _ hchain
  | sendSelf =>
    rename_i r' below hself hkind
    cases hm : r'.msg <;> rw [hm] at hafter <;> cases hafter
  | taken =>
    rename_i source wi snap m below
    cases m <;> cases hafter
  | _ =>
    cases hafter
    try trivial

end

theorem Move.ready_of_ne {x : Fin n} (hx : x ≠ c) (h : SendReady (s.fifo r.target (some x)) r pc) :
    SendReady (e.onFifo r.target (some x) (s.fifo r.target (some x))) r pc := by
  have hsome : (some x : Option (Fin n)) ≠ some c := fun heq => hx (Option.some.inj heq)
  cases hmove <;> try exact h
  case write =>
      rw [onFifo, if_neg fun heq => hsome heq.2]
      exact h
  case bump =>
      rw [onFifo, if_neg fun heq => hsome heq.2]
      exact h
  case taken =>
      rw [onFifo]
      split_ifs
      · exact h.take _
      · exact h
  case complete =>
      rw [onFifo]
      split_ifs
      · cases pc <;> exact h
      · exact h
  case requeue =>
      rw [onFifo, if_neg fun heq => Option.some_ne_none x heq.2]
      exact h

end Step

theorem State.Indexed.next {s s' : State n F} {c : Fin n} {input : Input n F}
    (h : s.Indexed) (hnext : s.next (c, input) = some s') : s'.Indexed := by
  have hchained := h.chained.next hnext
  obtain ⟨after, e, hmove, rfl⟩ := move_of_next hnext
  constructor
  · exact hchained
  · intro d source
    rw [apply_fifo, setFrames_fifo]
    exact hmove.sound h.sound (h.ready c) d source
  · intro x r pc b hframes
    rw [apply_fifo, setFrames_fifo]
    rw [frames_step] at hframes
    split_ifs at hframes with hx
    · subst hx
      exact hmove.ready h.sound (h.ready _) (h.chained _) hframes
    · exact hmove.ready_of_ne hx (h.ready x r pc b hframes)

theorem State.indexed_initial : (State.initial : State n F).Indexed := by
  constructor
  · intro c
    exact isChain_nil
  · intro d source
    exact Fifo.sound_empty
  · intro c r pc b hframes
    cases hframes

theorem indexed_of_runs {allow : State n F → Fin n × Input n F → Prop} {s : State n F}
    (h : Runs allow s) : s.Indexed := by
  apply h.invariant State.Indexed
  · intro start hstart
    rw [hstart]
    exact indexed_initial
  · intro s event s' hs _ hnext
    exact hs.next hnext

end Ipiq
end DragonFly
