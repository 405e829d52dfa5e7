import DragonFly.IpiqOrder

/-!
# No IPI wakeup is lost

A sender sets its bit in the ipimask of the target after it has queued a message,
and sends a hardware IPI only when it is the one that acquires the poll flag.  The
target gives the flag back when it has found its ipimask empty, and looks at the
ipimask once more after that.  A message that is not passive is therefore covered:
by a bit that some processing function still has to look at, by a sender that still
has to signal, or by the poll flag, which stands for an IPI on its way.
-/

namespace DragonFly
namespace Ipiq

open List State Effect

variable {n : ℕ} {F : Type}

def Frame.processPc : Frame n F → Option (ProcessPc n)
  | .process _ pc => some pc
  | _ => none

/-- The points at which the processing functions of a stack stand. -/
def processPcs (frames : List (Frame n F)) : List (ProcessPc n) :=
  frames.filterMap Frame.processPc

/-- The processing function has taken the bit of a cpu and has not emptied its FIFO
since. -/
def ProcessPc.Covers (a : Fin n) : ProcessPc n → Prop
  | .scan mask => a ∈ mask
  | .fifo mask _ => a ∈ mask
  | _ => False

inductive ProcessMove (s : State n F) (c : Fin n) :
    List (ProcessPc n) → List (ProcessPc n) → Effect n F → Prop
  | same {l e} (hclear : ∀ mask, e ≠ .clear c mask) (hrelease : e ≠ .release c)
      (hservice : e ≠ .service c) : ProcessMove s c l l e
  | call {l e} (hclear : ∀ mask, e ≠ .clear c mask) (hrelease : e ≠ .release c) :
      ProcessMove s c l (.read :: l) e
  | clear {mask l} :
      ProcessMove s c (.clear mask :: l) (.scan mask :: l) (.clear c mask)
  | scanDone {l} : ProcessMove s c (.scan ∅ :: l) (.sync :: l) .nothing
  | scanSelf {mask l} :
      ProcessMove s c (.scan mask :: l) (.scan (mask.erase c) :: l) .nothing
  | scanFifo {mask a l} :
      ProcessMove s c (.scan mask :: l) (.fifo mask a :: l) .nothing
  | more {mask a l} : ProcessMove s c (.fifo mask a :: l) (.scan mask :: l) .nothing
  | done {mask a l}
      (hempty : (s.fifo c (some a)).rindex = (s.fifo c (some a)).windex) :
      ProcessMove s c (.fifo mask a :: l) (.scan (mask.erase a) :: l) .nothing
  | plain {pc pc' l} (hpc : ∀ a, ¬ pc.Covers a) (hpc' : pc' ≠ .recheckAfter) :
      ProcessMove s c (pc :: l) (pc' :: l) .nothing
  | release {l} : ProcessMove s c (.release :: l) (.recheckAfter :: l) (.release c)
  | ret {l} (hempty : (s.cpu c).ipimask = ∅) :
      ProcessMove s c (.recheckAfter :: l) l .nothing

theorem eq_empty_of_lowest (h : lowest mask = none) : mask = ∅ := by
  rw [lowest, find?_eq_none] at h
  apply Finset.eq_empty_of_forall_notMem
  intro a ha
  exact h a (mem_finRange a) (by simpa using ha)

theorem Msg.processPc_frame (m : Msg n F) : m.frame.processPc = none := by
  cases m <;> rfl

variable {s : State n F} {c : Fin n} {source : Option (Fin n)}

theorem processMove_of_exit (hchain : List.IsChain Calls (.core source wi snap .exit :: b)) :
    ProcessMove s c (processPcs (.core source wi snap .exit :: b))
      (processPcs (b.modifyHead (s.resume c
        (decide ((s.fifo c source).rindex ≠ (s.fifo c source).windex))))) .nothing := by
  cases b with
  | nil => exact .same (by simp) (by simp) (by simp)
  | cons x b =>
    rw [isChain_cons_cons] at hchain
    rw [modifyHead_cons]
    rcases core_caller hchain.1 with ⟨a, fr, mask, rfl, rfl⟩ | ⟨fr, rfl, rfl⟩
    · by_cases hempty : (s.fifo c (some a)).rindex = (s.fifo c (some a)).windex
      · rw [decide_eq_false (not_not.mpr hempty)]
        exact .done hempty
      · rw [decide_eq_true hempty]
        exact .more
    · refine .plain (fun a ha => ha) ?_
      split_ifs <;> simp

theorem Move.processMove {before after : List (Frame n F)} (hmove : Move s c before after e)
    (hchain : List.IsChain Calls before) :
    ProcessMove s c (processPcs before) (processPcs after) e := by
  cases hmove with
  | sendSelf =>
    rename_i r b hself hkind
    have hpcs : processPcs (r.msg.frame :: b) = processPcs b :=
      filterMap_cons_none (Msg.processPc_frame _)
    rw [hpcs]
    exact .same (by simp) (by simp) (by simp)
  | taken =>
    rename_i source wi snap m b
    have hpcs : processPcs (m.frame :: Frame.core source wi snap
        (.running (s.fifo c source).started.length) :: b) = processPcs b :=
      filterMap_cons_none (Msg.processPc_frame _)
    rw [hpcs]
    exact .same (by simp) (by simp) (by simp)
  | drain | lockWait | unlockWait | unlockLast | waitMore | idleProcess
  | idleService =>
    exact .call (by simp) (by simp)
  | read => exact .plain (fun a ha => ha) (by simp)
  | clear => exact .clear
  | scanDone hlow =>
    rw [eq_empty_of_lowest hlow]
    exact .scanDone
  | scanSelf => exact .scanSelf
  | scanFifo => exact .scanFifo
  | syncSkip => exact .plain (fun a ha => ha) (by simp)
  | sync => exact .plain (fun a ha => ha) (by simp)
  | recheckClear => exact .plain (fun a ha => ha) (by simp)
  | recheckAgain => exact .plain (fun a ha => ha) (by simp)
  | release => exact .release
  | processReturn hempty => exact .ret hempty
  | processAgain => exact .plain (fun a ha => ha) (by simp)
  | exit => exact processMove_of_exit hchain
  | _ => exact .same (by simp) (by simp) (by simp)

theorem ProcessMove.kept (h : ProcessMove s c l l' e) (hpc : pc ∈ l) :
    pc ∈ l' ∨ ∃ rest, l = pc :: rest := by
  cases h with
  | same => exact .inl hpc
  | call => exact .inl (mem_cons_of_mem _ hpc)
  | _ =>
    rcases mem_cons.mp hpc with rfl | hpc
    · exact .inr ⟨_, rfl⟩
    · simp [hpc]

variable {d : Fin n} {entry : Entry n F}

section Sender

variable {s : State n F} {c : Fin n} {before after b : List (Frame n F)}
  {e : Effect n F} {r : Req n F} {k : ℕ}

/-- The top frame is a send to the cpu at one of some points. -/
def Sending (frames : List (Frame n F)) (t : Fin n) (P : Req n F → SendPc → Prop) : Prop :=
  ∃ r pc b, frames = .send r pc :: b ∧ r.target = t ∧ P r pc

def AtMark (_ : Req n F) : SendPc → Prop
  | .mark _ => True
  | _ => False

def BeforeSignal (r : Req n F) : SendPc → Prop
  | .mark _ => r.kind ≠ .passive
  | .signal _ => True
  | _ => False

/-- The poll flag has been acquired and the hardware IPI has not been sent. -/
def AtIpi (_ : Req n F) : SendPc → Prop
  | .pollIpi => True
  | .signalIpi _ => True
  | _ => False

section

variable (hmove : Move s c before after e)
include hmove

/-- A send that has queued its message was about to do so, and its entry is the last
one of the FIFO. -/
theorem Move.mark_top
    (hchain : List.IsChain Calls before) (hafter : after = .send r (.mark k) :: b) :
    before = .send r .bump :: b ∧ e = .bump r.target (some c) ⟨r.msg, r.kind⟩ := by
  obtain ⟨top, rfl, hkind⟩ := (hmove.shape hchain).top hchain hafter nofun nofun (by rintro _ ⟨⟩)
  cases top <;> cases hkind
  cases hmove with
  | bump =>
    cases hafter
    exact ⟨rfl, rfl⟩
  | sendSelf =>
    rename_i r' hself hkind
    cases hm : r'.msg <;> rw [hm] at hafter <;> cases hafter
  | sendSelfPassive | sendRefused | leaveNowait | leave =>
    exact absurd (congrArg List.length hafter) (by simp)
  | _ => cases hafter

theorem Move.of_mark (hbefore : before = .send r (.mark k) :: b) :
    e = .mark r.target c ∧ (r.kind ≠ .passive → after = .send r (.signal k) :: b) := by
  cases hmove <;> cases hbefore
  case markPassive hkind => exact ⟨rfl, fun h => absurd hkind h⟩
  case mark hkind => exact ⟨rfl, fun _ => rfl⟩

theorem Move.of_signal (hbefore : before = .send r (.signal k) :: b) :
    ((s.cpu r.target).npoll = true ∧ e = .nothing) ∨ e = .acquire r.target := by
  cases hmove <;> cases hbefore
  case signalBusy hbusy => exact .inl ⟨hbusy, rfl⟩
  case signalFree => exact .inr rfl

theorem Move.of_atIpi (hbefore : before = .send r pc :: b) (hpc : AtIpi r pc) :
    e = .ipi r.target := by
  cases hmove <;> cases hbefore <;> first
    | rfl
    | exact hpc.elim

theorem Move.acquire_target (he : e = .acquire target) : Sending after target AtIpi := by
  cases hmove <;> cases he
  case pollFree => exact ⟨_, _, _, rfl, rfl, trivial⟩
  case signalFree => exact ⟨_, _, _, rfl, rfl, trivial⟩

theorem Move.bump_source (he : e = .bump d source entry) :
    ∃ r k b, before = .send r .bump :: b ∧ after = .send r (.mark k) :: b ∧
      d = r.target ∧ source = some c ∧ entry = ⟨r.msg, r.kind⟩ := by
  cases hmove <;> cases he
  exact ⟨_, _, _, rfl, rfl, rfl, rfl, rfl⟩

theorem Move.send_mem (hchain : List.IsChain Calls before) (hmem : .send r pc ∈ after)
    (hpc : pc ≠ .start) : (∃ pc', pc' ≠ .start ∧ .send r pc' ∈ before) ∨ r.target ≠ c := by
  rcases (hmove.shape hchain).mem hmem with hold | hfresh | hkind | ⟨top, b, rfl, hkind, hafter⟩
  · exact .inl ⟨pc, hpc, hold⟩
  · exact absurd hfresh hpc
  · cases hkind
  · cases top <;> cases hkind
    cases hmove with
    | sendNowait hother | sendFull hother | sendRoom hother =>
      rcases hafter with hafter | ⟨z, hafter⟩ <;> cases hafter
      exact .inr hother
    | sendSelf =>
      rename_i r' hself hkind
      cases hm : r'.msg <;> rw [hm] at hafter <;> rcases hafter with hafter | ⟨z, hafter⟩ <;>
        cases hafter
    | sendSelfPassive | sendRefused | leaveNowait | leave =>
      rcases hafter with hafter | ⟨z, hafter⟩ <;>
        · have hlength := congrArg List.length hafter
          simp only [length_cons] at hlength
          omega
    | _ =>
      rcases hafter with hafter | ⟨z, hafter⟩ <;> cases hafter
      exact .inl ⟨_, by simp, mem_cons_self⟩

end

end Sender

/-- A bit stands for the FIFO: it is set, or a processing function has taken it and
will look into the FIFO. -/
def State.Visible (s : State n F) (t a : Fin n) : Prop :=
  a ∈ (s.cpu t).ipimask ∨ ∃ pc ∈ processPcs (s.cpu t).frames, pc.Covers a

/-- Everything that has been queued has been taken out, or is what a send has just
queued without having set its bit. -/
def State.Drained (s : State n F) (t a : Fin n) : Prop :=
  (s.fifo t (some a)).queued.length ≤ (s.fifo t (some a)).started.length ∨
    (Sending (s.cpu a).frames t AtMark ∧
      (s.fifo t (some a)).queued.length ≤ (s.fifo t (some a)).started.length + 1)

/-- How the messages that are not passive are accounted for. -/
structure State.Covered (s : State n F) : Prop where
  indexed : s.Indexed
  apart : ∀ c r pc, .send r pc ∈ (s.cpu c).frames → pc ≠ .start → r.target ≠ c
  own : ∀ t, (s.fifo t (some t)).queued = []
  last : ∀ c r k b, (s.cpu c).frames = .send r (.mark k) :: b →
    ∃ entries, (s.fifo r.target (some c)).queued = entries ++ [⟨r.msg, r.kind⟩]
  seen : ∀ t a, a ≠ t → s.Visible t a ∨ s.Drained t a
  polled : ∀ t, (s.cpu t).npoll = true → (s.cpu t).ipi = true ∨
    (∃ c, Sending (s.cpu c).frames t AtIpi) ∨
    ∃ pc ∈ processPcs (s.cpu t).frames, pc ≠ .recheckAfter
  signalled : ∀ t a, processPcs (s.cpu t).frames = [] →
    (∃ entry ∈ (s.fifo t (some a)).unstarted, entry.kind ≠ .passive) →
    (s.cpu t).npoll = true ∨ Sending (s.cpu a).frames t BeforeSignal

theorem State.covered_initial : (State.initial : State n F).Covered := by
  constructor
  · exact indexed_initial
  · intro c r pc hmem
    cases hmem
  · intro t
    rfl
  · intro c r k b hframes
    cases hframes
  · intro t a _
    exact .inr (.inl le_rfl)
  · intro t hnpoll
    cases hnpoll
  · intro t a _ hentry
    obtain ⟨entry, hmem, -⟩ := hentry
    cases hmem

namespace State.Covered

variable {s : State n F} {c t a : Fin n} {after : List (Frame n F)} {e : Effect n F}

theorem mem_onMask (ha : a ∈ mask) :
    a ∈ e.onMask t mask ∨ ∃ cleared, e = .clear t cleared ∧ a ∈ cleared := by
  cases e with
  | mark target source =>
    left
    rw [onMask]
    split_ifs
    · exact Finset.mem_insert_of_mem ha
    · exact ha
  | clear target cleared =>
    by_cases ht : t = target ∧ a ∈ cleared
    · exact .inr ⟨cleared, by rw [ht.1], ht.2⟩
    · left
      rw [onMask]
      split_ifs with heq
      · exact Finset.mem_sdiff.mpr ⟨ha, fun hmem => ht ⟨heq, hmem⟩⟩
      · exact ha
  | _ => exact .inl ha

theorem started_onFifo (d : Fin n) (source : Option (Fin n)) (q : Fifo n F) :
    q.started.length ≤ (e.onFifo d source q).started.length := by
  cases e with
  | take =>
    rw [onFifo]
    split_ifs
    · change _ ≤ (q.started ++ [_]).length
      rw [length_append]
      exact Nat.le_add_right _ _
    · exact le_rfl
  | write | bump | complete | requeue =>
    rw [onFifo]
    split_ifs
    · exact le_rfl
    · exact le_rfl
  | _ => exact le_rfl

theorem npoll_of_onNpoll (h : e.onNpoll t npoll = true) :
    e = .acquire t ∨ (npoll = true ∧ e ≠ .release t) := by
  cases e with
  | acquire target =>
    rw [onNpoll] at h
    split_ifs at h with ht
    · exact .inl (by rw [ht])
    · exact .inr ⟨h, by simp⟩
  | release target =>
    rw [onNpoll] at h
    split_ifs at h with ht
    exact .inr ⟨h, fun heq => ht (by cases heq; rfl)⟩
  | _ => exact .inr ⟨h, by simp⟩

theorem onNpoll_of_npoll (h : e ≠ .release t) : e.onNpoll t true = true := by
  cases e with
  | release target =>
    rw [onNpoll, if_neg]
    intro ht
    exact h (by rw [ht])
  | acquire target =>
    rw [onNpoll]
    split_ifs
    · rfl
    · rfl
  | _ => rfl

theorem onIpi_of_ipi : e.onIpi t true = true ∨ e = .service t := by
  cases e with
  | service target =>
    by_cases ht : t = target
    · exact .inr (by rw [ht])
    · exact .inl (by rw [onIpi, if_neg ht])
  | ipi target =>
    left
    rw [onIpi]
    split_ifs
    · rfl
    · rfl
  | _ => exact .inl rfl

/-- A processing function that returns has left nothing behind but what a send is
about to signal. -/
theorem signalled_return (h : s.Covered) (hpcs : processPcs (s.cpu t).frames = [.recheckAfter])
    (hmask : (s.cpu t).ipimask = ∅) (ha : a ≠ t)
    (hentry : entry ∈ (s.fifo t (some a)).unstarted) (hkind : entry.kind ≠ .passive) :
    Sending (s.cpu a).frames t BeforeSignal := by
  have hlt : (s.fifo t (some a)).started.length < (s.fifo t (some a)).queued.length := by
    have hlength := length_pos_of_mem hentry
    rw [Fifo.unstarted, length_drop] at hlength
    omega
  rcases h.seen t a ha with hvisible | hle | ⟨⟨r, pc, b, hframes, rfl, hpc⟩, hle⟩
  · rcases hvisible with hbit | ⟨pc, hpc, hcovers⟩
    · rw [hmask] at hbit
      exact absurd hbit (Finset.notMem_empty a)
    · rw [hpcs, mem_singleton] at hpc
      rw [hpc] at hcovers
      exact hcovers.elim
  · omega
  · cases pc with
    | mark k =>
      obtain ⟨entries, hentries⟩ := h.last a r k b hframes
      rw [hentries, length_append, length_singleton] at hle hlt
      rw [Fifo.unstarted, hentries, drop_append_of_le_length (by omega),
        drop_eq_nil_of_le (by omega), nil_append,
        mem_singleton] at hentry
      rw [hentry] at hkind
      exact ⟨r, .mark k, b, hframes, rfl, hkind⟩
    | _ => exact hpc.elim

section Moves

variable (hmove : Move s c (s.cpu c).frames after e)
include hmove

theorem apart_move (h : s.Covered) (x : Fin n) (r : Req n F) (pc : SendPc)
    (hmem : .send r pc ∈ (((s.setFrames c after).apply e).cpu x).frames)
    (hpc : pc ≠ .start) : r.target ≠ x := by
  rw [frames_step] at hmem
  split_ifs at hmem with hx
  · subst hx
    rcases hmove.send_mem (h.indexed.chained x) hmem hpc with
      ⟨pc', hpc', hmem'⟩ | hne
    · exact h.apart x r pc' hmem' hpc'
    · exact hne
  · exact h.apart x r pc hmem hpc

theorem queued_move (d a : Fin n)
    (hother : a ≠ c ∨ ∀ r b, (s.cpu c).frames = .send r .bump :: b → r.target ≠ d) :
    (e.onFifo d (some a) (s.fifo d (some a))).queued = (s.fifo d (some a)).queued := by
  cases he : e with
  | bump d' source entry =>
    obtain ⟨r, k, b, hbefore, -, hd, hsource, -⟩ := hmove.bump_source he
    rw [onFifo, if_neg]
    rintro ⟨heq, hsome⟩
    rw [hsource] at hsome
    rcases hother with hne | hne
    · exact hne (Option.some.inj hsome)
    · exact hne r b hbefore (hd ▸ heq.symm)
  | write | take | complete =>
    rw [onFifo]
    split_ifs
    · rfl
    · rfl
  | requeue d' p =>
    rw [onFifo, if_neg fun heq => Option.some_ne_none a heq.2]
  | _ => rfl

theorem own_move (h : s.Covered) (t : Fin n) :
    (e.onFifo t (some t) (s.fifo t (some t))).queued = [] := by
  rw [queued_move hmove, h.own t]
  by_cases ht : t = c
  · right
    intro r b hframes
    rw [ht]
    refine h.apart c r .bump ?_ (by simp)
    rw [hframes]
    exact mem_cons_self
  · exact .inl ht

theorem last_move (h : s.Covered) (x : Fin n) (r : Req n F) (k : ℕ) (b : List (Frame n F))
    (hframes : (((s.setFrames c after).apply e).cpu x).frames = .send r (.mark k) :: b) :
    ∃ entries, (e.onFifo r.target (some x) (s.fifo r.target (some x))).queued =
      entries ++ [⟨r.msg, r.kind⟩] := by
  rw [frames_step] at hframes
  split_ifs at hframes with hx
  · subst hx
    obtain ⟨-, he⟩ := hmove.mark_top (h.indexed.chained x) hframes
    rw [he, onFifo, if_pos ⟨rfl, rfl⟩]
    exact ⟨_, rfl⟩
  · rw [queued_move hmove _ _ (.inl hx)]
    exact h.last x r k b hframes

theorem visible_target (h : s.Covered) (ha : a ≠ c) (hvisible : s.Visible c a) :
    ((s.setFrames c after).apply e).Visible c a ∨
      (s.fifo c (some a)).queued.length ≤ (s.fifo c (some a)).started.length := by
  have hmoved := hmove.processMove (h.indexed.chained c)
  have hpcs : processPcs (((s.setFrames c after).apply e).cpu c).frames = processPcs after := by
    rw [frames_step, if_pos rfl]
  have hmask : (((s.setFrames c after).apply e).cpu c).ipimask = e.onMask c (s.cpu c).ipimask := by
    rw [apply_ipimask, setFrames_ipimask]
  rw [State.Visible, hpcs, hmask]
  rcases hvisible with hbit | ⟨pc, hpc, hcovers⟩
  · left
    rcases mem_onMask hbit with hkept | ⟨cleared, he, hcleared⟩
    · exact .inl hkept
    · right
      generalize processPcs (s.cpu c).frames = l at hmoved
      generalize processPcs after = l' at hmoved
      cases hmoved with
      | same hclear | call hclear => exact absurd he (hclear cleared)
      | clear =>
        cases he
        exact ⟨_, mem_cons_self, hcleared⟩
      | _ => cases he
  · rcases hmoved.kept hpc with hkept | ⟨rest, htop⟩
    · exact .inl (.inr ⟨pc, hkept, hcovers⟩)
    rw [htop] at hmoved
    generalize processPcs after = l' at hmoved
    cases hmoved with
    | same | call => exact .inl (.inr ⟨pc, by simp, hcovers⟩)
    | ret | clear | release => exact hcovers.elim
    | done hempty =>
      rename_i mask a'
      by_cases haa : a = a'
      · subst haa
        exact .inr ((h.indexed.sound c (some a)).length_le_of_eq hempty)
      · exact .inl (.inr ⟨_, mem_cons_self, Finset.mem_erase.mpr ⟨haa, hcovers⟩⟩)
    | scanSelf =>
      exact .inl (.inr ⟨_, mem_cons_self, Finset.mem_erase.mpr ⟨ha, hcovers⟩⟩)
    | scanDone => exact absurd hcovers (Finset.notMem_empty a)
    | plain hplain => exact absurd hcovers (hplain a)
    | scanFifo | more => exact .inl (.inr ⟨_, mem_cons_self, hcovers⟩)

theorem clear_target (he : e = .clear t cleared) : t = c := by
  generalize (s.cpu c).frames = before at hmove
  cases hmove <;> cases he
  rfl

theorem visible_other (ht : t ≠ c) (hvisible : s.Visible t a) :
    ((s.setFrames c after).apply e).Visible t a := by
  rw [State.Visible, frames_step, if_neg ht, apply_ipimask, setFrames_ipimask]
  rcases hvisible with hbit | hcovers
  · rcases mem_onMask hbit with hkept | ⟨cleared, he, -⟩
    · exact .inl hkept
    · exact absurd (clear_target hmove he) ht
  · exact .inr hcovers

theorem drained_sender (hdrained : s.Drained t c) :
    ((s.setFrames c after).apply e).Visible t c ∨ ((s.setFrames c after).apply e).Drained t c := by
  rcases hdrained with hle | ⟨⟨r, pc, b, hframes, rfl, hpc⟩, hle⟩
  · right
    rw [State.Drained, apply_fifo, setFrames_fifo, frames_step, if_pos rfl]
    have hmono := started_onFifo (e := e) t (some c) (s.fifo t (some c))
    by_cases hbump : ∃ r b, (s.cpu c).frames = .send r .bump :: b ∧ r.target = t
    · obtain ⟨r, b, hframes, rfl⟩ := hbump
      rw [hframes] at hmove
      cases hmove
      right
      refine ⟨⟨_, _, _, rfl, rfl, trivial⟩, ?_⟩
      rw [onFifo, if_pos ⟨rfl, rfl⟩]
      change (_ ++ [_]).length ≤ _
      rw [length_append]
      exact Nat.add_le_add_right hle 1
    · left
      have hqueued := queued_move hmove t c
        (.inr fun r b hframes htarget => hbump ⟨r, b, hframes, htarget⟩)
      rw [hqueued]
      exact hle.trans hmono
  · left
    cases pc with
    | mark k =>
      obtain ⟨he, -⟩ := hmove.of_mark hframes
      left
      rw [apply_ipimask, setFrames_ipimask, he, onMask, if_pos rfl]
      exact Finset.mem_insert_self _ _
    | _ => exact hpc.elim

theorem seen_move (h : s.Covered) (t a : Fin n) (ha : a ≠ t) :
    ((s.setFrames c after).apply e).Visible t a ∨ ((s.setFrames c after).apply e).Drained t a := by
  have hmono := started_onFifo (e := e) t (some a) (s.fifo t (some a))
  have hkept : a ≠ c → (s.Drained t a → ((s.setFrames c after).apply e).Drained t a) := by
    intro hac hdrained
    rw [State.Drained, apply_fifo, setFrames_fifo, frames_step,
      if_neg hac, queued_move hmove _ _ (.inl hac)]
    rcases hdrained with hle | ⟨hsending, hle⟩
    · exact .inl (hle.trans hmono)
    · exact .inr ⟨hsending, hle.trans (Nat.add_le_add_right hmono 1)⟩
  rcases h.seen t a ha with hvisible | hdrained
  · by_cases ht : t = c
    · subst ht
      rcases h.visible_target hmove ha hvisible with hv | hle
      · exact .inl hv
      · exact .inr (hkept ha (.inl hle))
    · exact .inl (visible_other hmove ht hvisible)
  · by_cases hac : a = c
    · subst hac
      exact drained_sender hmove hdrained
    · exact .inr (hkept hac hdrained)

theorem release_target (he : e = .release t) : t = c := by
  generalize (s.cpu c).frames = before at hmove
  cases hmove <;> cases he
  rfl

theorem service_target (he : e = .service t) : t = c ∧ .read ∈ processPcs after := by
  generalize (s.cpu c).frames = before at hmove
  cases hmove <;> cases he
  exact ⟨rfl, mem_cons_self⟩

/-- A processing function that will give the poll flag back stays on the stack until
it has done so. -/
theorem releasing_target (h : s.Covered) (he : e ≠ .release c)
    (hpcs : ∃ pc ∈ processPcs (s.cpu c).frames, pc ≠ .recheckAfter) :
    ∃ pc ∈ processPcs after, pc ≠ .recheckAfter := by
  have hmoved := hmove.processMove (h.indexed.chained c)
  obtain ⟨pc, hpc, hne⟩ := hpcs
  generalize processPcs (s.cpu c).frames = l at hmoved hpc
  generalize processPcs after = l' at hmoved
  cases hmoved with
  | same => exact ⟨pc, hpc, hne⟩
  | call => exact ⟨_, mem_cons_self, by simp⟩
  | release => exact absurd rfl he
  | ret =>
    rw [mem_cons] at hpc
    rcases hpc with heq | hpc
    · exact absurd heq hne
    · exact ⟨pc, hpc, hne⟩
  | plain hcovers hpc' => exact ⟨_, mem_cons_self, hpc'⟩
  | _ => exact ⟨_, mem_cons_self, by simp⟩

theorem polled_move (h : s.Covered) (t : Fin n)
    (hnpoll : (((s.setFrames c after).apply e).cpu t).npoll = true) :
    (((s.setFrames c after).apply e).cpu t).ipi = true ∨
      (∃ x, Sending (((s.setFrames c after).apply e).cpu x).frames t AtIpi) ∨
      ∃ pc ∈ processPcs (((s.setFrames c after).apply e).cpu t).frames, pc ≠ .recheckAfter := by
  rw [apply_npoll, setFrames_npoll] at hnpoll
  rw [apply_ipi, setFrames_ipi]
  rcases npoll_of_onNpoll hnpoll with he | ⟨hold, hrelease⟩
  · right
    left
    refine ⟨c, ?_⟩
    rw [frames_step, if_pos rfl]
    exact hmove.acquire_target he
  · rcases h.polled t hold with hipi | ⟨x, hsending⟩ | hpcs
    · rw [hipi]
      rcases onIpi_of_ipi with hkept | he
      · exact .inl hkept
      · obtain ⟨rfl, hread⟩ := service_target hmove he
        right
        right
        rw [frames_step, if_pos rfl]
        exact ⟨_, hread, by simp⟩
    · by_cases hx : x = c
      · left
        subst hx
        obtain ⟨r, pc, b, hframes, rfl, hpc⟩ := hsending
        rw [hmove.of_atIpi hframes hpc, onIpi, if_pos rfl]
      · right
        left
        refine ⟨x, ?_⟩
        rw [frames_step, if_neg hx]
        exact hsending
    · right
      right
      rw [frames_step]
      split_ifs with ht
      · subst ht
        exact h.releasing_target hmove hrelease hpcs
      · exact hpcs

theorem unstarted_move
    (hother : a ≠ c ∨ ∀ r b, (s.cpu c).frames = .send r .bump :: b → r.target ≠ d)
    (hentry : entry ∈ (e.onFifo d (some a) (s.fifo d (some a))).unstarted) :
    entry ∈ (s.fifo d (some a)).unstarted := by
  rw [Fifo.unstarted, queued_move hmove d a hother] at hentry
  exact drop_subset_drop_left _ (started_onFifo _ _ _) hentry

theorem signalled_sender (h : s.Covered) (hpcs : processPcs (s.cpu t).frames = [])
    (hentry : entry ∈ (e.onFifo t (some c) (s.fifo t (some c))).unstarted)
    (hkind : entry.kind ≠ .passive) (hrelease : e ≠ .release t) :
    e.onNpoll t (s.cpu t).npoll = true ∨ Sending after t BeforeSignal := by
  have hold : entry ∈ (s.fifo t (some c)).unstarted →
      (s.cpu t).npoll = true ∨ Sending (s.cpu c).frames t BeforeSignal := by
    intro hmem
    exact h.signalled t c hpcs ⟨entry, hmem, hkind⟩
  by_cases hbump : ∃ r b, (s.cpu c).frames = .send r .bump :: b ∧ r.target = t
  · obtain ⟨r, b, hframes, rfl⟩ := hbump
    rw [hframes] at hold hmove
    cases hmove
    by_cases hpassive : r.kind = .passive
    · left
      rw [onFifo, if_pos ⟨rfl, rfl⟩] at hentry
      change entry ∈ List.drop _ (_ ++ [_]) at hentry
      rw [drop_append, mem_append] at hentry
      rcases hentry with hentry | hentry
      · rcases hold hentry with hnpoll | ⟨r', pc', b', heq, -, hpc'⟩
        · exact hnpoll
        · cases heq
          exact hpc'.elim
      · have hlast := mem_of_mem_drop hentry
        rw [mem_singleton] at hlast
        rw [hlast] at hkind
        exact absurd hpassive hkind
    · right
      exact ⟨r, _, _, rfl, rfl, hpassive⟩
  · have hmem := unstarted_move hmove
      (.inr fun r b hframes htarget => hbump ⟨r, b, hframes, htarget⟩) hentry
    rcases hold hmem with hnpoll | ⟨r, pc, b, hframes, rfl, hpc⟩
    · left
      rw [hnpoll]
      exact onNpoll_of_npoll hrelease
    · cases pc with
      | mark k =>
        obtain ⟨-, hafter⟩ := hmove.of_mark hframes
        rw [hafter hpc]
        exact .inr ⟨r, _, _, rfl, rfl, trivial⟩
      | signal k =>
        left
        rcases hmove.of_signal hframes with ⟨hbusy, he⟩ | he
        · rw [he]
          exact hbusy
        · rw [he, onNpoll, if_pos rfl]
      | _ => exact hpc.elim

theorem signalled_move (h : s.Covered) (t a : Fin n)
    (hpcs : processPcs (((s.setFrames c after).apply e).cpu t).frames = [])
    (hentry : ∃ entry ∈ (((s.setFrames c after).apply e).fifo t (some a)).unstarted,
      entry.kind ≠ .passive) :
    (((s.setFrames c after).apply e).cpu t).npoll = true ∨
      Sending (((s.setFrames c after).apply e).cpu a).frames t BeforeSignal := by
  obtain ⟨entry, hentry, hkind⟩ := hentry
  rw [apply_fifo, setFrames_fifo] at hentry
  rw [apply_npoll, setFrames_npoll, frames_step]
  rw [frames_step] at hpcs
  have ha : a ≠ t := by
    rintro rfl
    have hown := h.own_move hmove a
    rw [Fifo.unstarted, hown, drop_nil] at hentry
    cases hentry
  by_cases ht : t = c
  · subst ht
    rw [if_pos rfl] at hpcs
    rw [if_neg ha]
    have hmem := unstarted_move hmove (.inl ha) hentry
    have hmoved := hmove.processMove (h.indexed.chained t)
    rw [hpcs] at hmoved
    generalize hbefore : processPcs (s.cpu t).frames = l at hmoved
    cases hmoved with
    | same hclear hrelease =>
      rcases h.signalled t a hbefore ⟨entry, hmem, hkind⟩ with hnpoll | hsending
      · left
        rw [hnpoll]
        exact onNpoll_of_npoll hrelease
      · exact .inr hsending
    | ret hempty => exact .inr (h.signalled_return hbefore hempty ha hmem hkind)
  · rw [if_neg ht] at hpcs
    have hrelease : e ≠ .release t := fun he => ht (release_target hmove he)
    by_cases hac : a = c
    · subst hac
      rw [if_pos rfl]
      exact h.signalled_sender hmove hpcs hentry hkind hrelease
    · rw [if_neg hac]
      have hmem := unstarted_move hmove (.inl hac) hentry
      rcases h.signalled t a hpcs ⟨entry, hmem, hkind⟩ with hnpoll | hsending
      · left
        rw [hnpoll]
        exact onNpoll_of_npoll hrelease
      · exact .inr hsending

end Moves

theorem next (h : s.Covered) (hnext : s.next (c, input) = some s') : s'.Covered := by
  have hindexed := h.indexed.next hnext
  obtain ⟨after, e, hmove, rfl⟩ := move_of_next hnext
  constructor
  · exact hindexed
  · exact h.apart_move hmove
  · intro t
    rw [apply_fifo, setFrames_fifo]
    exact h.own_move hmove t
  · intro x r k b hframes
    rw [apply_fifo, setFrames_fifo]
    exact h.last_move hmove x r k b hframes
  · exact h.seen_move hmove
  · exact h.polled_move hmove
  · exact h.signalled_move hmove

end State.Covered

/-- As long as no pass falls behind by half a turn of the indices: whenever a cpu is outside of
the processing functions and no send to it is under way, the messages for it that follow those
started are covered, if one of them has been queued with a signal, by a hardware IPI that has
been sent and not been serviced. -/
theorem ipi_pending_of_unstarted {s : State n F} (h : Runs State.Near s) (t : Fin n)
    (houtside : ∀ fr pc, .process fr pc ∉ (s.cpu t).frames)
    (hreturned : ∀ c r pc, .send r pc ∈ (s.cpu c).frames → r.target ≠ t)
    (a : Fin n) (entry : Entry n F) (hentry : entry ∈ (s.fifo t (some a)).unstarted)
    (hkind : entry.kind = .norm ∨ entry.kind = .nowait) :
    (s.fifo t (some a)).queued.map Entry.msg =
        (s.fifo t (some a)).started ++ (s.fifo t (some a)).unstarted.map Entry.msg ∧
      (s.cpu t).ipi = true := by
  have hcovered : s.Covered := by
    apply h.invariant State.Covered
    · intro start hstart
      rw [hstart]
      exact covered_initial
    · intro s event s' hs _ hnext
      exact hs.next hnext
  have hpcs : processPcs (s.cpu t).frames = [] := by
    rw [processPcs, filterMap_eq_nil_iff]
    intro frame hframe
    cases frame with
    | process fr pc => exact absurd hframe (houtside fr pc)
    | _ => rfl
  have hidle : ∀ c P, ¬ Sending (s.cpu c).frames t P := by
    rintro c P ⟨r, pc, b, hframes, htarget, -⟩
    refine hreturned c r pc ?_ htarget
    rw [hframes]
    exact mem_cons_self
  have hpassive : entry.kind ≠ .passive := by
    rcases hkind with hkind | hkind <;> rw [hkind] <;> simp
  have hnpoll : (s.cpu t).npoll = true := by
    rcases hcovered.signalled t a hpcs ⟨entry, hentry, hpassive⟩ with h | h
    · exact h
    · exact absurd h (hidle a _)
  constructor
  · obtain ⟨rest, hrest⟩ := (ordered_of_near h).order t (some a)
    rw [Fifo.unstarted, map_drop, ← hrest, drop_left]
  rcases hcovered.polled t hnpoll with hipi | ⟨c, hsending⟩ | ⟨pc, hpc, -⟩
  · exact hipi
  · exact absurd hsending (hidle c _)
  · rw [hpcs] at hpc
    cases hpc

theorem ipi_pending_after_send : ∃ s : State 2 Bool, Runs State.Near s ∧
      (s.fifo 1 (some 0)).unstarted = [⟨.call true, .norm⟩] ∧
      (s.cpu 1).ipi = true := by
  have hrun : ((runEvents State.Near next (initial : State 2 Bool)
      ((0, .request .norm 1 true) :: List.replicate 7 (0, .run))).map fun s =>
        ((s.fifo 1 (some 0)).unstarted, (s.cpu 0).frames, (s.cpu 1).frames)) =
      some ([⟨.call true, .norm⟩], [], []) := by
    decide +kernel
  have hstart : Runs State.Near (initial : State 2 Bool) := .start rfl
  obtain ⟨s, hreach, hview⟩ := hstart.view hrun
  simp only [Prod.mk.injEq] at hview
  obtain ⟨hunstarted, hsender, htarget⟩ := hview
  refine ⟨s, hreach, hunstarted, ?_⟩
  refine (ipi_pending_of_unstarted hreach 1 ?_ ?_ 0 ⟨.call true, .norm⟩ ?_ (.inl rfl)).2
  · intro fr pc hmem
    rw [htarget] at hmem
    cases hmem
  · intro c r pc hmem
    fin_cases c
    · rw [show (⟨0, by decide⟩ : Fin 2) = 0 from rfl, hsender] at hmem
      cases hmem
    · rw [show (⟨1, by decide⟩ : Fin 2) = 1 from rfl, htarget] at hmem
      cases hmem
  · rw [hunstarted]
    exact mem_singleton_self _

namespace Wrap

variable {s : State 3 Bool} {q sink : Fifo 3 Bool} {k : ℕ}

/-- The message that cpu 0 sends once the read index is ahead of the write index. -/
def lostReq : Req 3 Bool :=
  ⟨.norm, ⟨1, by decide⟩, .call true⟩

def lostFifo (q : Fifo 3 Bool) (k : ℕ) : Fifo 3 Bool :=
  sent .norm true ((staleFifo q).complete k)

/-- The message makes the indices equal, so that cpu 1 finds nothing to start and leaves. -/
theorem spin_lost (h : Spin s [] [.function false 0, .core (some 0) 1 1 (.running k),
      .process false (.fifo {0} 0)] ∅ (staleFifo q) sink)
    (hwindex : q.windex = 0) (hrindex : q.rindex = 0) :
    ∃ s' position, Spin s' [.send lostReq (.signal position)] [] ∅ (lostFifo q k) sink := by
  obtain ⟨s₁, h₁⟩ : ∃ s', Spin s' [] [.core (some 0) 1 1 (.running k),
      .process false (.fifo {0} 0)] ∅ (staleFifo q) sink := by
    have hstep : s.stepFrames 1 .finish = _ := stepFrames_choose h.receiver (by simp)
    exact h.step 1 (by decide) _ .nothing hstep (sees_nothing _ _ _)
  obtain ⟨s₂, h₂⟩ : ∃ s', Spin s' [] [.core (some 0) 1 1 .test, .process false (.fifo {0} 0)]
      ∅ ((staleFifo q).complete k) sink :=
    h₁.receive (.complete 1 (some 0) k) rfl rfl (sees (by simp) rfl rfl fun _ => rfl)
  obtain ⟨s₃, h₃⟩ : ∃ s', Spin s' [] [.core (some 0) 1 1 .exit, .process false (.fifo {0} 0)]
      ∅ ((staleFifo q).complete k) sink := by
    have hcode : s₂.codeStep 1 (.core (some 0) 1 1 .test) =
        some (.goto (.core (some 0) 1 1 .exit), .nothing) := by
      rw [codeStep, coreStep_done]
      rw [h₂.fifo]
      change (1 - (q.rindex + 1)).toInt ≤ 0
      rw [hrindex]
      decide
    exact h₂.receiveQuiet hcode rfl
  obtain ⟨s₄, position, h₄⟩ := spin_queue h₃ .norm (by decide) true (by
    change (q.windex - (q.rindex + 1)).toInt ≤ 16
    rw [hwindex, hrindex]
    decide)
  obtain ⟨s₅, h₅⟩ : ∃ s', Spin s' [.send lostReq (.signal position)]
      [.core (some 0) 1 1 .exit, .process false (.fifo {0} 0)] {0} (lostFifo q k) sink :=
    h₄.send (.mark 1 0) rfl rfl ⟨by simp, by decide, rfl, rfl, rfl, rfl, fun _ => rfl⟩
  obtain ⟨s₆, h₆⟩ := spin_return h₅ (by
    change q.windex + 1 = q.rindex + 1
    rw [hwindex, hrindex])
  exact ⟨s₆, position, h₆⟩

/-- The hardware IPI is sent and serviced. -/
theorem spin_service (h : Spin s [.send lostReq (.signalIpi k)] [] ∅ q sink) :
    ∃ s', Spin s' [.send lostReq (.leave k)] [.process true .read] ∅ q sink := by
  obtain ⟨s₁, h₁⟩ : ∃ s', Spin s' [.send lostReq (.leave k)] [] ∅ q sink true :=
    h.step 0 (by decide) .run (.ipi 1) (stepFrames_run h.sender rfl)
      ⟨by simp, rfl, rfl, rfl, rfl, rfl, fun _ => rfl⟩
  have hstep : s₁.stepFrames 1 .service = some ([.process true .read], .service 1) := by
    rw [stepFrames_choose h₁.receiver (by simp), State.choose, if_pos h₁.ipi]
  exact h₁.step 1 (by decide) .service (.service 1) hstep
    ⟨by simp, rfl, rfl, rfl, rfl, rfl, fun _ => rfl⟩

theorem spin_processed (h : Spin s sender [.process true .read] ∅ q sink) :
    ∃ s', Spin s' sender [] ∅ q sink := by
  obtain ⟨s₁, h₁⟩ : ∃ s', Spin s' sender [.process true (.clear ∅)] ∅ q sink := by
    refine h.receiveQuiet rfl ?_
    rw [h.mask]
    rfl
  obtain ⟨s₂, h₂⟩ : ∃ s', Spin s' sender [.process true (.scan ∅)] ∅ q sink :=
    h₁.receive (.clear 1 ∅) rfl rfl ⟨by simp, by decide, rfl, rfl, rfl, rfl, fun _ => rfl⟩
  obtain ⟨s₃, h₃⟩ : ∃ s', Spin s' sender [.process true .sync] ∅ q sink :=
    h₂.receiveQuiet rfl rfl
  obtain ⟨s₄, h₄⟩ : ∃ s', Spin s' sender [.process true .recheck] ∅ q sink := by
    have hcode : s₃.codeStep 1 (.process true .sync) =
        some (.goto (.process true .recheck), .nothing) := by
      rw [codeStep, processStep, if_pos ⟨rfl, h₃.sync.2.trans h₃.sync.1.symm⟩]
    exact h₃.receiveQuiet hcode rfl
  exact spin_release h₄

theorem spin_signalled (h : Spin s [.send lostReq (.signal k)] [] ∅ q sink) :
    ∃ s', Spin s' [] [] ∅ q sink := by
  have hleave : ∀ {s}, Spin s [.send lostReq (.leave k)] [] ∅ q sink →
      ∃ s', Spin s' [] [] ∅ q sink := fun {s} h =>
    h.send (.ticket 0 ⟨1, (s.fifo 1 (some 0)).windex, k⟩) rfl rfl
      (sees (by simp) rfl rfl fun _ => rfl)
  cases hbusy : (s.cpu lostReq.target).npoll with
  | true =>
    obtain ⟨s₁, h₁⟩ : ∃ s', Spin s' [.send lostReq (.leave k)] [] ∅ q sink := by
      have hcode : s.codeStep 0 (.send lostReq (.signal k)) =
          some (.goto (.send lostReq (.leave k)), .nothing) := by
        rw [codeStep, sendStep, if_pos hbusy]
      exact h.send .nothing hcode rfl (sees_nothing _ _ _)
    exact hleave h₁
  | false =>
    obtain ⟨s₁, h₁⟩ : ∃ s', Spin s' [.send lostReq (.signalIpi k)] [] ∅ q sink := by
      have hcode : s.codeStep 0 (.send lostReq (.signal k)) =
          some (.goto (.send lostReq (.signalIpi k)), .acquire 1) := by
        rw [codeStep, sendStep, if_neg (by rw [hbusy]; decide)]
        rfl
      exact h.send (.acquire 1) hcode rfl (sees (by simp) rfl rfl fun _ => rfl)
    obtain ⟨s₂, h₂⟩ := spin_service h₁
    obtain ⟨s₃, h₃⟩ := spin_processed h₂
    exact hleave h₃

end Wrap

/-- After a pass has fallen a whole turn behind, a message is queued and signalled that is not
started when the hardware IPI is serviced. -/
theorem unstarted_without_ipi : ∃ s : State 3 Bool, Runs (fun _ _ => True) s ∧
      (∀ fr pc, .process fr pc ∉ (s.cpu 1).frames) ∧
      (∀ c r pc, .send r pc ∈ (s.cpu c).frames → r.target ≠ 1) ∧
      ⟨.call true, .norm⟩ ∈ (s.fifo 1 (some 0)).queued ∧
      .call true ∉ (s.fifo 1 (some 0)).started ∧ (s.cpu 1).ipi = false := by
  obtain ⟨s₀, q, sink, k, hq, hwindex, h₀⟩ := Wrap.exists_stale
  obtain ⟨s₁, position, h₁⟩ := Wrap.spin_lost h₀ hwindex (hq.index.symm.trans hwindex)
  obtain ⟨s, h⟩ := Wrap.spin_signalled h₁
  refine ⟨s, h.runs, ?_, ?_, ?_, ?_, h.ipi⟩
  · intro fr pc
    rw [h.receiver]
    exact not_mem_nil
  · intro c r pc hmem
    fin_cases c
    · exact absurd (h.sender ▸ hmem) not_mem_nil
    · exact absurd (h.receiver ▸ hmem) not_mem_nil
    · exact absurd hmem (h.third r pc)
  · rw [h.fifo]
    exact mem_append_right _ (mem_singleton_self _)
  · rw [h.fifo]
    change Msg.call true ∉ q.started ++ [Msg.call false]
    rw [hq.started, ← replicate_succ']
    intro hmem
    cases eq_of_mem_replicate hmem

end Ipiq
end DragonFly
