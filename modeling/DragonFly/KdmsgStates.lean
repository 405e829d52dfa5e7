import DragonFly.EventSystem

/-!
# Transaction states of the kernel dmsg protocol

A transaction has a command and a reply sequence, each begun by CREATE and ended by
DELETE.  Its state is kept in the tree of the side that began it until both sequences
have ended.  A message is checked before its handler runs or before it is written, and its
DELETE is entered into the state only afterwards, so other messages come in between.
-/

namespace DragonFly.Kdmsg

open Function

/-- The two directions.  Their trees are `staterd_tree` and `statewr_tree`. -/
inductive Dir where
  | rx
  | tx
  deriving DecidableEq

def Dir.other : Dir → Dir
  | .rx => .tx
  | .tx => .rx

structure Flags where
  create : Bool
  delete : Bool
  reply : Bool
  abort : Bool
  deriving DecidableEq

inductive Errno where
  | einval
  | ealready
  deriving DecidableEq

/-- A state with its `rxcmd` and `txcmd`; the key is its circuit and message id. -/
structure KdmsgState (K : Type) where
  key : K
  cmd : Dir → Flags
  inserted : Bool

/-- What has happened to a state: it was allocated for a transaction of one side, the
first message of ours was written, the directions have ended, and it was freed. -/
structure History where
  used : Bool
  opener : Dir
  created : Bool
  deleted : Dir → Bool
  frees : ℕ

def History.closed (past : History) : Bool :=
  past.deleted .rx && past.deleted .tx

/-- A direction may end: a message of ours has been written, or the peer has sent its
command. -/
def History.begun (past : History) (d : Dir) : Bool :=
  past.created || (past.opener = .rx && d = .rx)

def History.ended (past : History) (d : Dir) (frees : ℕ) : History :=
  { past with deleted := update past.deleted d true, frees := frees }

/-- A connection.  `msg` is the message between its check and its cleanup. -/
structure Iocom (S K : Type) where
  tree : Dir → List S
  state : S → KdmsgState K
  msg : Dir → Option (Flags × Option S)
  past : S → History
  panicked : Bool

namespace Iocom

variable {S K : Type}

section

variable (s : Iocom S K)

def Started : Prop :=
  (∀ d, s.tree d = []) ∧ (∀ d, s.msg d = none) ∧ (∀ i, (s.past i).used = false) ∧ s.panicked = false

def panic : Iocom S K :=
  { s with panicked := true }

def hand (d : Dir) (f : Flags) (i : Option S) : Iocom S K :=
  { s with msg := update s.msg d (some (f, i)) }

/-- The rows without CREATE, which both switches have. -/
def resume (d : Dir) (f : Flags) (i : Option S) : Except Errno (Iocom S K) :=
  if (f.delete || f.abort) && !i.any fun i => ((s.state i).cmd d).create then
    .error (if f.abort then .ealready else .einval)
  else .ok (s.hand d f i)

end

section

variable [DecidableEq S]

section

variable (s : Iocom S K)

def setState (i : S) (state : KdmsgState K) (past : History) : Iocom S K :=
  { s with state := update s.state i state, past := update s.past i past }

def insert (d : Dir) (i : S) (k : K) (rxcmd txcmd : Flags) : Iocom S K :=
  { s.setState i ⟨k, (if · = .rx then rxcmd else txcmd), true⟩
      ⟨true, d, false, fun _ => false, 0⟩ with
    tree := update s.tree d (i :: s.tree d) }

/-- A message in a direction sets its command, which does not hold DELETE yet. -/
def setCmd (d : Dir) (i : S) (f : Flags) : Iocom S K :=
  s.setState i
    { s.state i with cmd := update (s.state i).cmd d { f with delete := false } }
    { s.past i with created := (s.past i).created || d = .tx }

def kdmsgMsgAlloc (k : K) (i : S) : Iocom S K :=
  s.insert .tx i k ⟨false, false, false, false⟩ ⟨false, false, false, false⟩

end

/-- `fresh` is the state that is ready for a new command. -/
def kdmsgStateMsgrx [DecidableEq K] (s : Iocom S K) (f : Flags) (k : K) (fresh : S) :
    Except Errno (Iocom S K) :=
  let found := (s.tree (if f.reply then .tx else .rx)).find? fun i => (s.state i).key = k
  match f.create, f.reply, found with
  | false, _, found => s.resume .rx f found
  | true, false, some _ => .error .einval
  | true, false, none =>
    .ok ((s.insert .rx fresh k { f with delete := false } ⟨false, false, true, false⟩).hand
      .rx f (some fresh))
  | true, true, none => .error .einval
  | true, true, some i => .ok ((s.setCmd .rx i f).hand .rx f (some i))

section

variable (s : Iocom S K)

def kdmsgStateMsgtx (f : Flags) (i : Option S) : Except Errno (Iocom S K) :=
  match f.create, f.reply, i with
  | false, _, i => s.resume .tx f i
  | true, false, none => .ok s.panic
  | true, false, some i =>
    let cmd := (if · = .rx then ⟨false, false, true, false⟩ else { f with delete := false })
    .ok ((s.setState i { s.state i with cmd := cmd } { s.past i with created := true }).hand
      .tx f (some i))
  | true, true, none => .error .einval
  | true, true, some i => .ok ((s.setCmd .tx i f).hand .tx f (some i))

/-- The DELETE of a message is entered, and the state removed and freed when both
directions have one.  A failed assertion panics. -/
def cleanup (d : Dir) (f : Flags) (i : S) : Iocom S K :=
  let state := s.state i
  let past := s.past i
  let cmd := update state.cmd d { state.cmd d with delete := true }
  if (state.cmd d).delete then s.panic
  else if (state.cmd d.other).delete then
    if !state.inserted || (state.cmd d).reply != f.reply then s.panic
    else
      let t := if (state.cmd d).reply then d.other else d
      { s.setState i { state with cmd := cmd, inserted := false }
          (past.ended d (past.frees + 1)) with
        tree := update s.tree t ((s.tree t).filter (· ≠ i)) }
  else s.setState i { state with cmd := cmd } (past.ended d past.frees)

def finish (d : Dir) : Option (Iocom S K) :=
  (s.msg d).map fun (f, i) =>
    let s := { s with msg := update s.msg d none }
    match i with
    | some i => if f.delete then s.cleanup d f i else s
    | none => s

def kdmsgStateCleanuprx : Option (Iocom S K) := s.finish .rx

def kdmsgStateCleanuptx : Option (Iocom S K) := s.finish .tx

end

/-- The receiving thread checks a header and later cleans it up, the writing thread does
the same with the messages queued for it, and any thread may begin a transaction. -/
inductive Event (S K : Type) where
  | receive (f : Flags) (k : K) (fresh : S)
  | cleanuprx
  | alloc (k : K) (fresh : S)
  | transmit (f : Flags) (i : Option S)
  | cleanuptx

/-- A refused message is dropped.  The message id of a new command is its address, which no
other state of its tree has. -/
def next [DecidableEq K] (s : Iocom S K) : Event S K → Option (Iocom S K)
  | .receive f k fresh =>
    if s.msg .rx = none ∧ (s.past fresh).used = false then
      some ((s.kdmsgStateMsgrx f k fresh).toOption.getD s)
    else none
  | .cleanuprx => s.kdmsgStateCleanuprx
  | .alloc k fresh =>
    if (s.past fresh).used = false ∧ ∀ i ∈ s.tree .tx, (s.state i).key ≠ k then
      some (s.kdmsgMsgAlloc k fresh)
    else none
  | .transmit f i =>
    if s.msg .tx = none then some ((s.kdmsgStateMsgtx f i).toOption.getD s) else none
  | .cleanuptx => s.kdmsgStateCleanuptx

/-- Our own messages on a state begin with one CREATE, carry REPLY if the peer began, and
hold at most one DELETE. -/
def Follows (s : Iocom S K) : Event S K → Prop
  | .transmit f none => f.create = false
  | .transmit f (some i) =>
    (s.past i).used = true ∧ f.create = !(s.past i).created ∧
      f.reply = decide ((s.past i).opener = .rx) ∧
      (f.delete = true → (s.past i).deleted .tx = false)
  | _ => True

/-- The peer sends no DELETE and no REPLY with CREATE on a sequence it has ended, and no
DELETE in reply to a command that has not been written. -/
def Orderly (s : Iocom S K) : Event S K → Prop
  | .receive f k _ =>
    ∀ i ∈ s.tree (if f.reply then .tx else .rx), (s.state i).key = k →
      (f.create = true → f.reply = true) → (f.create = true ∨ f.delete = true) →
        ((s.state i).cmd .rx).delete = false ∧
          (f.reply = true → f.delete = true → ((s.state i).cmd .tx).create = true)
  | _ => True

end

/-! ## What a state remembers -/

structure Fits (state : KdmsgState K) (past : History) : Prop where
  inserted : state.inserted = !past.closed
  frees : past.frees = past.closed.toNat
  delete : ∀ d, (state.cmd d).delete = past.deleted d
  begun : ∀ d, past.deleted d = true → past.begun d = true
  reply : past.created = true ∨ past.opener = .rx →
    ∀ d, (state.cmd d).reply = decide (d ≠ past.opener)
  create : (state.cmd .tx).create = true → past.created = true

/-- A DELETE in a direction is on its way. -/
structure Awaits (past : History) (d : Dir) (f : Flags) : Prop where
  used : past.used = true
  begun : past.begun d = true
  running : past.deleted d = false
  reply : f.reply = decide (d ≠ past.opener)

structure Sound (s : Iocom S K) : Prop where
  calm : s.panicked = false
  tree : ∀ d i, i ∈ s.tree d ↔
    (s.past i).used = true ∧ (s.past i).opener = d ∧ (s.past i).closed = false
  fits : ∀ i, (s.past i).used = true → Fits (s.state i) (s.past i)
  msg : ∀ d f i, s.msg d = some (f, some i) → f.delete = true → Awaits (s.past i) d f

variable {s s' : Iocom S K} {i : S} {d : Dir} {f : Flags} {k : K}

variable {state : KdmsgState K} {past : History}

theorem Fits.running
    (h : Fits state past) (hcreated : past.created = false) (hd : past.opener = .tx ∨ d = .tx) :
    past.deleted d = false := by
  by_contra hdeleted
  have hbegun := h.begun d (by simpa using hdeleted)
  simp only [History.begun, hcreated, Bool.false_or, Bool.and_eq_true, decide_eq_true_eq] at hbegun
  rcases hd with hd | hd
  · rw [hd] at hbegun
    cases hbegun.1
  · rw [hd] at hbegun
    cases hbegun.2

theorem closed_ended : (past.ended d n).closed = past.deleted d.other := by
  cases d <;> simp [History.closed, History.ended, Dir.other]

theorem Awaits.ended (h : Awaits past d f) (hd : d ≠ d') : Awaits (past.ended d' n) d f :=
  ⟨h.used, h.begun, by simp [History.ended, hd, h.running], h.reply⟩

theorem Fits.ended (h : Fits state past) (hbegun : past.begun d = true) {inserted : Bool}
    (hinserted : inserted = !past.deleted d.other) (hn : n = (past.deleted d.other).toNat) :
    Fits
      { state with
        cmd := update state.cmd d { state.cmd d with delete := true }
        inserted := inserted }
      (past.ended d n) := by
  refine ⟨?_, ?_, ?_, ?_, ?_, ?_⟩
  · rw [closed_ended]
    exact hinserted
  · rw [closed_ended]
    exact hn
  · intro d'
    by_cases hd : d' = d
    · simp [hd, History.ended]
    · simp [hd, History.ended, h.delete]
  · intro d' hdeleted
    by_cases hd : d' = d
    · rw [hd]
      exact hbegun
    · simp only [History.ended, update_of_ne hd] at hdeleted
      exact h.begun d' hdeleted
  · intro hopen d'
    by_cases hd : d' = d
    · simp only [hd, update_self]
      exact h.reply hopen d
    · simp only [update_of_ne hd]
      exact h.reply hopen d'
  · intro hcreate
    apply h.create
    by_cases hd : Dir.tx = d
    · subst hd
      simpa using hcreate
    · simpa [hd] using hcreate

theorem Sound.awaits_receive (h : s.Sound) (hmem : i ∈ s.tree (if f.reply then .tx else .rx))
    (hrunning : ((s.state i).cmd .rx).delete = false)
    (hwritten : f.reply = true → ((s.state i).cmd .tx).create = true) :
    Awaits (s.past i) .rx f := by
  obtain ⟨hused, hopener, -⟩ := (h.tree _ _).mp hmem
  have hfits := h.fits i hused
  refine ⟨hused, ?_, by rw [← hfits.delete, hrunning], ?_⟩
  · cases hreply : f.reply with
    | false => simp [History.begun, hopener, hreply]
    | true => simp [History.begun, hfits.create (hwritten hreply)]
  · rw [hopener]
    cases f.reply <;> rfl

theorem awaits_transmit (hused : past.used = true) (hcreated : past.created = true)
    (hreply : f.reply = decide (past.opener = .rx)) (hrunning : past.deleted .tx = false) :
    Awaits past .tx f := by
  refine ⟨hused, by simp [History.begun, hcreated], hrunning, ?_⟩
  rw [hreply]
  cases past.opener <;> rfl

theorem Sound.hand (h : s.Sound) {i : Option S}
    (hmsg : ∀ j, i = some j → f.delete = true → Awaits (s.past j) d f) : (s.hand d f i).Sound := by
  refine ⟨h.calm, h.tree, h.fits, ?_⟩
  intro d' f' j hpending hdelete
  by_cases hd : d' = d
  · subst hd
    simp only [Iocom.hand, update_self, Option.some.injEq, Prod.mk.injEq] at hpending
    obtain ⟨rfl, hi⟩ := hpending
    exact hmsg j hi hdelete
  · simp only [Iocom.hand, update_of_ne hd] at hpending
    exact h.msg d' f' j hpending hdelete

theorem Sound.resume (h : s.Sound) {i : Option S}
    (hmsg : ∀ j, i = some j → f.delete = true → Awaits (s.past j) d f) :
    ((s.resume d f i).toOption.getD s).Sound := by
  rw [Iocom.resume]
  split
  · exact h
  · exact h.hand hmsg

theorem Started.sound (h : s.Started) : s.Sound := by
  obtain ⟨htree, hmsg, hused, hcalm⟩ := h
  refine ⟨hcalm, ?_, ?_, ?_⟩
  · simp [htree, hused]
  · simp [hused]
  · simp [hmsg]

variable [DecidableEq S]

theorem Sound.set
    (h : s.Sound) (i : S) {tree : Dir → List S} (hused : past.used = true) (hfits : Fits state past)
    (htree : ∀ d j, j ∈ tree d ↔
      if j = i then past.opener = d ∧ past.closed = false else j ∈ s.tree d)
    (hmsg : ∀ d f, s.msg d = some (f, some i) → f.delete = true → Awaits past d f) :
    Sound { s.setState i state past with tree := tree } := by
  refine ⟨h.calm, ?_, ?_, ?_⟩
  · intro d j
    rw [htree]
    by_cases hj : j = i
    · rw [if_pos hj, hj]
      simp [setState, hused]
    · rw [if_neg hj, h.tree]
      simp [setState, hj]
  · intro j
    by_cases hj : j = i
    · rw [hj]
      simpa [setState] using fun _ => hfits
    · simpa [setState, hj] using h.fits j
  · intro d f j hpending hdelete
    by_cases hj : j = i
    · rw [hj] at hpending
      simpa [setState, hj] using hmsg d f hpending hdelete
    · simpa [setState, hj] using h.msg d f j hpending hdelete

theorem Sound.setState (h : s.Sound) (hused : (s.past i).used = true) (hfits : Fits state past)
    (hpast : past = { s.past i with created := past.created })
    (hcreated : (s.past i).created = true → past.created = true) :
    (s.setState i state past).Sound := by
  apply h.set i
  · rw [hpast]
    exact hused
  · exact hfits
  · intro d j
    by_cases hj : j = i
    · rw [if_pos hj, hj, h.tree, hpast]
      simp [hused, History.closed]
    · rw [if_neg hj]
  · intro d f hpending hdelete
    have hold := h.msg d f i hpending hdelete
    rw [hpast]
    refine ⟨hused, ?_, hold.running, hold.reply⟩
    have hbegun := hold.begun
    simp only [History.begun, Bool.or_eq_true] at hbegun ⊢
    exact hbegun.imp hcreated id

theorem Sound.insert (h : s.Sound) {rxcmd txcmd : Flags} (hused : (s.past i).used = false)
    (hfits : Fits (⟨k, (if · = .rx then rxcmd else txcmd), true⟩ : KdmsgState K)
      ⟨true, d, false, fun _ => false, 0⟩) :
    (s.insert d i k rxcmd txcmd).Sound := by
  apply h.set i rfl hfits
  · intro d' j
    have hnot : i ∉ s.tree d' := by
      rw [h.tree, hused]
      simp
    by_cases hd : d' = d
    · subst hd
      by_cases hj : j = i
      · simp [hj, History.closed]
      · simp [hj]
    · by_cases hj : j = i
      · simp [hj, hd, hnot, Ne.symm hd]
      · simp [hj, hd]
  · intro d f hpending hdelete
    have hold := (h.msg d f i hpending hdelete).used
    rw [hused] at hold
    cases hold

/-! ## Steps -/

theorem Sound.setCmd (h : s.Sound) (hused : (s.past i).used = true)
    (hrunning : (s.past i).deleted d = false) (hreply : f.reply = true)
    (hopener : (s.past i).opener = d.other) : (s.setCmd d i f).Sound := by
  have hfits := h.fits i hused
  refine h.setState hused ⟨hfits.inserted, hfits.frees, ?_, ?_, ?_, ?_⟩ rfl (by simp_all)
  · intro d'
    by_cases hd : d' = d
    · simp [hd, hrunning]
    · simp [hd, hfits.delete]
  · intro d' hdeleted
    have hbegun := hfits.begun d' hdeleted
    simp only [History.begun, Bool.or_eq_true] at hbegun ⊢
    tauto
  · intro hopen d'
    by_cases hd : d' = d
    · simp only [hd, update_self, hreply, hopener]
      cases d <;> rfl
    · simp only [update_of_ne hd]
      apply hfits.reply
      cases d with
      | rx => simpa using hopen
      | tx => exact .inr hopener
  · cases d with
    | rx => simpa using hfits.create
    | tx => simp

theorem Sound.receive [DecidableEq K] (h : s.Sound) (hfresh : (s.past fresh).used = false)
    (horderly : s.Orderly (.receive f k fresh)) :
    ((s.kdmsgStateMsgrx f k fresh).toOption.getD s).Sound := by
  have hfound : ∀ i, (s.tree (if f.reply then .tx else .rx)).find?
      (fun i => (s.state i).key = k) = some i →
      i ∈ s.tree (if f.reply then .tx else .rx) ∧ (s.state i).key = k := by
    intro i hi
    exact ⟨List.mem_of_find?_eq_some hi, by simpa using List.find?_some hi⟩
  simp only [kdmsgStateMsgrx]
  generalize (s.tree (if f.reply then .tx else .rx)).find? _ = found at hfound ⊢
  split
  next hcreate =>
    apply h.resume
    intro i hi hdelete
    obtain ⟨hmem, hkey⟩ := hfound i hi
    obtain ⟨hrunning, hwritten⟩ := horderly i hmem hkey (by simp [hcreate]) (.inr hdelete)
    exact h.awaits_receive hmem hrunning fun hreply => hwritten hreply hdelete
  · exact h
  next hcreate hreply =>
    have hins : (s.insert .rx fresh k { f with delete := false }
        ⟨false, false, true, false⟩).Sound := by
      apply h.insert hfresh
      refine ⟨rfl, rfl, ?_, nofun, ?_, nofun⟩
      · intro d
        cases d <;> rfl
      · intro _ d
        cases d
        · simpa using hreply
        · rfl
    apply hins.hand
    intro j hj _
    cases hj
    refine ⟨?_, ?_, ?_, ?_⟩ <;> simp [Iocom.insert, Iocom.setState, History.begun, hreply]
  · exact h
  next i hcreate hreply =>
    obtain ⟨hmem, hkey⟩ := hfound i rfl
    obtain ⟨hrunning, hwritten⟩ := horderly i hmem hkey (fun _ => hreply) (.inl hcreate)
    obtain ⟨hused, hopener, -⟩ := (h.tree _ _).mp hmem
    have hdeleted := hrunning
    rw [(h.fits i hused).delete] at hdeleted
    apply (h.setCmd hused hdeleted hreply (by rw [hopener, hreply]; rfl)).hand
    intro j hj hdelete
    cases hj
    simpa [Iocom.setCmd, Iocom.setState] using
      h.awaits_receive hmem hrunning fun _ => hwritten hreply hdelete

theorem Sound.transmit
    [DecidableEq K] (h : s.Sound) {i : Option S} (hfollows : s.Follows (.transmit f i)) :
    ((s.kdmsgStateMsgtx f i).toOption.getD s).Sound := by
  cases i with
  | none =>
    simp only [kdmsgStateMsgtx, show f.create = false from hfollows]
    exact h.resume nofun
  | some i =>
    obtain ⟨hused, hcreate, hreply, hrunning⟩ := hfollows
    have hfits := h.fits i hused
    simp only [kdmsgStateMsgtx]
    split
    next hfalse =>
      apply h.resume
      intro j hj hdelete
      cases hj
      rw [hfalse] at hcreate
      exact awaits_transmit hused (by simpa using hcreate) hreply (hrunning hdelete)
    next hi => cases hi
    next htrue hcommand hi =>
      cases hi
      rw [htrue] at hcreate
      have hcreated : (s.past i).created = false := by simpa using hcreate.symm
      have hopener : (s.past i).opener = .tx := by
        rw [hcommand] at hreply
        cases ho : (s.past i).opener with
        | rx => simp [ho] at hreply
        | tx => rfl
      have hnone : ∀ d, (s.past i).deleted d = false :=
        fun d => hfits.running hcreated (.inl hopener)
      apply Sound.hand
      · apply h.setState hused ?_ rfl (fun _ => rfl)
        refine ⟨hfits.inserted, hfits.frees, ?_, ?_, ?_, fun _ => rfl⟩
        · intro d
          cases d <;> simp [hnone]
        · intro d hdeleted
          rw [hnone] at hdeleted
          cases hdeleted
        · intro _ d
          cases d <;> simp [hopener, hcommand]
      · intro j hj _
        cases hj
        apply awaits_transmit <;> simp [Iocom.setState, hused, hreply, hnone]
    next hi => cases hi
    next htrue hanswer hi =>
      cases hi
      rw [htrue] at hcreate
      have hopener : (s.past i).opener = .rx := by simpa [hanswer] using hreply
      have hdeleted := hfits.running (d := .tx) (by simpa using hcreate.symm) (.inr rfl)
      apply (h.setCmd hused hdeleted hanswer hopener).hand
      intro j hj _
      cases hj
      apply awaits_transmit <;>
        simp [Iocom.setCmd, Iocom.setState, hused, hopener, hdeleted, hanswer]

theorem Sound.cleanup (h : s.Sound) (hawaits : Awaits (s.past i) d f) (hmsg : s.msg d = none) :
    (s.cleanup d f i).Sound := by
  have hfits := h.fits i hawaits.used
  have hreply : ((s.state i).cmd d).reply = decide (d ≠ (s.past i).opener) := by
    apply hfits.reply
    have hbegun := hawaits.begun
    simp only [History.begun, Bool.or_eq_true, Bool.and_eq_true, decide_eq_true_eq] at hbegun
    exact hbegun.imp id And.left
  have hrunning : ((s.state i).cmd d).delete = false := by
    rw [hfits.delete, hawaits.running]
  have hopen : (s.past i).closed = false := by
    have hdeleted := hawaits.running
    cases d <;> simp [History.closed, hdeleted]
  have hinserted : (s.state i).inserted = true := by
    rw [hfits.inserted, hopen]
    rfl
  have hfrees : (s.past i).frees = 0 := by
    rw [hfits.frees, hopen]
    rfl
  have hother : ∀ n d' f', s.msg d' = some (f', some i) → f'.delete = true →
      Awaits ((s.past i).ended d n) d' f' := by
    intro n d' f' hpending hdelete
    apply (h.msg d' f' i hpending hdelete).ended
    rintro rfl
    rw [hmsg] at hpending
    cases hpending
  have htree : (if ((s.state i).cmd d).reply then d.other else d) = (s.past i).opener := by
    rw [hreply]
    cases d <;> cases (s.past i).opener <;> rfl
  have hpass : (!(s.state i).inserted || ((s.state i).cmd d).reply != f.reply) = false := by
    simp [hinserted, hreply, hawaits.reply]
  simp only [Iocom.cleanup, hrunning, hpass, htree, Bool.false_eq_true, if_false]
  split_ifs with hlast
  · rw [hfits.delete] at hlast
    apply h.set i
    · exact hawaits.used
    · exact hfits.ended hawaits.begun (by simp [hlast]) (by simp [hlast, hfrees])
    · intro d' j
      rw [closed_ended, hlast]
      by_cases hd : d' = (s.past i).opener
      · by_cases hj : j = i
        · simp [hd, hj]
        · simp [hd, hj]
      · by_cases hj : j = i
        · simp [hd, hj, h.tree, Ne.symm hd]
        · simp [hd, hj]
    · exact hother _
  · rw [hfits.delete, Bool.not_eq_true] at hlast
    apply h.set i
    · exact hawaits.used
    · exact hfits.ended hawaits.begun (by simp [hlast, hinserted]) (by simp [hlast, hfrees])
    · intro d' j
      rw [closed_ended, hlast]
      by_cases hj : j = i
      · simp [hj, h.tree, hawaits.used, hopen, History.ended]
      · simp [hj]
    · exact hother _

theorem Sound.finish (h : s.Sound) (hfinish : s.finish d = some s') : s'.Sound := by
  simp only [Iocom.finish, Option.map_eq_some_iff, Prod.exists] at hfinish
  obtain ⟨f, i, hmsg, rfl⟩ := hfinish
  have hdrop : Sound { s with msg := update s.msg d none } := by
    refine ⟨h.calm, h.tree, h.fits, ?_⟩
    intro d' f' j hpending
    by_cases hd : d' = d
    · simp [hd] at hpending
    · simp only [update_of_ne hd] at hpending
      exact h.msg d' f' j hpending
  cases i with
  | none => exact hdrop
  | some i =>
    by_cases hdelete : f.delete = true
    · simp only [hdelete, if_true]
      exact hdrop.cleanup (h.msg d f i hmsg hdelete) (by simp)
    · simp only [hdelete]
      exact hdrop

theorem Sound.next
    [DecidableEq K] (h : s.Sound) {e : Event S K} (hfollows : s.Follows e) (horderly : s.Orderly e)
    (hnext : s.next e = some s') : s'.Sound := by
  cases e with
  | receive f k fresh =>
    exact of_guard_some hnext fun hidle => h.receive hidle.2 horderly
  | cleanuprx | cleanuptx => exact h.finish hnext
  | alloc k fresh =>
    apply of_guard_some hnext
    intro hfresh
    apply h.insert hfresh.1
    refine ⟨rfl, rfl, ?_, nofun, ?_, nofun⟩
    · intro d
      cases d <;> rfl
    · rintro (hcreated | hopener)
      · cases hcreated
      · cases hopener
  | transmit f i => exact of_guard_some hnext fun _ => h.transmit hfollows

/-! ## Whole runs -/

/-- A state is in the tree of the side that began it until both directions have seen
DELETE; then it is in no tree and has been freed once. -/
def Kept (s : Iocom S K) : Prop :=
  s.panicked = false ∧ ∀ i, (s.past i).used = true →
    if (s.past i).closed then (∀ d, i ∉ s.tree d) ∧ (s.past i).frees = 1
    else (∀ d, i ∈ s.tree d ↔ d = (s.past i).opener) ∧ (s.past i).frees = 0

theorem kept_of_orderly
    [DecidableEq K] (h : Reachable Started (fun s e => s.Follows e ∧ s.Orderly e) Iocom.next s) :
    s.Kept := by
  have hs : s.Sound :=
    h.invariant Sound (fun _ hstart => hstart.sound)
      fun _ _ _ hinv hallow hnext => hinv.next hallow.1 hallow.2 hnext
  refine ⟨hs.calm, ?_⟩
  intro i hused
  have hfrees := (hs.fits i hused).frees
  split_ifs with hclosed
  · refine ⟨?_, by rw [hfrees, hclosed]; rfl⟩
    simp [hs.tree, hclosed]
  · rw [Bool.not_eq_true] at hclosed
    refine ⟨?_, by rw [hfrees, hclosed]; rfl⟩
    simp [hs.tree, hused, hclosed, eq_comm]

/-! ## Fixed conversations -/

def connection : Iocom ℕ ℕ where
  tree _ := []
  state _ := ⟨0, fun _ => ⟨false, false, false, false⟩, false⟩
  msg _ := none
  past _ := ⟨false, .rx, false, fun _ => false, 0⟩
  panicked := false

theorem connection_started : connection.Started :=
  ⟨fun _ => rfl, fun _ => rfl, fun _ => rfl, rfl⟩

instance (s : Iocom ℕ ℕ) (e : Event ℕ ℕ) : Decidable (s.Follows e) := by
  cases e with
  | transmit f i => cases i <;> (unfold Follows; infer_instance)
  | _ => exact .isTrue trivial

instance (s : Iocom ℕ ℕ) (e : Event ℕ ℕ) : Decidable (s.Orderly e) := by
  cases e with
  | receive f k fresh => unfold Orderly; infer_instance
  | _ => exact .isTrue trivial

/-- A command in one message and the reply to it. -/
def exchange : List (Event ℕ ℕ) :=
  [.receive ⟨true, true, false, false⟩ 7 1, .cleanuprx,
    .transmit ⟨true, true, true, false⟩ (some 1), .cleanuptx]

theorem kept_after_exchange :
    ∃ s : Iocom ℕ ℕ, Reachable Started (fun s e => s.Follows e ∧ s.Orderly e) Iocom.next s ∧
      (s.past 1).closed = true ∧ s.Kept := by
  have hrun : (runEvents (fun s e => s.Follows e ∧ s.Orderly e) Iocom.next connection
      exchange).map (fun s => (s.past 1).closed) = some true := by
    decide +kernel
  obtain ⟨s, hreach, hclosed⟩ := (Reachable.start connection_started).view hrun
  exact ⟨s, hreach, hclosed, kept_of_orderly hreach⟩

/-- A command, its DELETE, and an ABORT with DELETE on the half-closed state. -/
def abortHalfClosed : List (Event ℕ ℕ) :=
  [.receive ⟨true, false, false, false⟩ 7 1, .cleanuprx,
    .receive ⟨false, true, false, false⟩ 7 2, .cleanuprx,
    .receive ⟨false, true, false, true⟩ 7 2, .cleanuprx]

theorem not_kept_after_abort :
    ∃ s : Iocom ℕ ℕ, Reachable Started Follows Iocom.next s ∧ ¬s.Kept := by
  have hrun : (runEvents Follows Iocom.next connection abortHalfClosed).map panicked =
      some true := by
    decide +kernel
  obtain ⟨s, hreach, hpanicked⟩ := (Reachable.start connection_started).view hrun
  refine ⟨s, hreach, ?_⟩
  intro hkept
  rw [hkept.1] at hpanicked
  cases hpanicked

end Iocom
end DragonFly.Kdmsg
