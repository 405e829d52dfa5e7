import DragonFly.EventSystem

/-!
# Kernel mutexes

One mutex and the threads that use it.  Every thread stands at a point of the
function it is in, and a step is one statement of that function with at most one
access to memory that another thread may change under it.  The queue of exclusive
waiters is only touched by the thread that holds `MTX_EXLINK`.  A link belongs to
the thread that waits on it and is named by that thread.

The fields of `mtx_lock` are kept apart.  A thread whose assertion fails, or that
follows a null pointer, takes no step.
-/

namespace DragonFly.Mutex

structure LockWord where
  exclusive : Bool
  shwanted : Bool
  exwanted : Bool
  exlink : Bool
  count : ℕ
  deriving DecidableEq

def mtxMask : ℕ := 0x0FFFFFFF

def LockWord.free : LockWord := ⟨false, false, false, false, 0⟩

/-- `MTX_EXCLUSIVE | 1`. -/
def LockWord.owned : LockWord := ⟨true, false, false, false, 1⟩

inductive LinkState where
  | idle
  | aborted
  | linked
  | acquired
  deriving DecidableEq

structure Link (T : Type) where
  next : Option T
  prev : Option T
  owner : Option T
  state : LinkState
  deriving DecidableEq

structure Mem (T : Type) where
  lock : LockWord
  owner : Option T
  head : Option T
  link : T → Link T

structure Held where
  ex : ℕ
  sh : ℕ
  deriving DecidableEq

inductive Ret where
  | ok
  | eagain
  | enolck
  | edeadlk
  | interrupted
  deriving DecidableEq

/-- `_mtx_lock_ex`, `_mtx_lock_ex_try`, `_mtx_spinlock` and `_mtx_spinlock_try`. -/
inductive ExKind where
  | block
  | attempt
  | spin
  | spinAttempt
  deriving DecidableEq

inductive UnlinkPc where
  | test
  | alone
  | head
  | nextPrev
  | prevNext
  deriving DecidableEq

inductive DeletePc where
  | read
  | claim (lock : LockWord)
  | check
  | unlink (p : UnlinkPc)
  | setIdle
  | clear
  deriving DecidableEq

inductive LockExPc where
  | init
  | read
  | claim
  | setOwner
  | owner (lock : LockWord)
  | recurse (lock : LockWord)
  | join (lock : LockWord)
  | checkAborted
  | dropLink
  | testHead
  | dropWanted
  | setLinkOwner
  | setLinked
  | testQueue
  | setNext
  | setPrev
  | setNextPrev
  | setPrevNext
  | setNextSelf
  | setPrevSelf
  | setHead
  | release
  | sleep
  | woke (error : Bool)
  | delete (error : Bool) (p : DeletePc)
  | testAcquired (error : Bool)
  | assertOwner
  | testAborted (error : Bool)
  deriving DecidableEq

inductive LockShPc where
  | read
  | claim (lock : LockWord)
  | want (lock : LockWord)
  | sleep
  deriving DecidableEq

inductive DowngradePc where
  | read
  | assertOwner (lock : LockWord)
  | swap (lock : LockWord)
  deriving DecidableEq

inductive UpgradePc where
  | read
  | swap (lock : LockWord)
  | setOwner
  | assertOwner
  deriving DecidableEq

/-- The points of `mtx_chain_link`.  The flag tells whether `clock` has
`MTX_EXWANTED` in it; an empty chain is `none`. -/
inductive ChainPc (T : Type) where
  | head
  | assertLinked (link : T)
  | unlink (link : T) (p : UnlinkPc)
  | setAcquired (link : T) (exwanted : Bool)
  | setOwner (link : T) (exwanted : Bool)
  | read (link : Option T) (exwanted : Bool)
  | swap (link : Option T) (exwanted : Bool) (lock : LockWord)
  | clearOwner
  deriving DecidableEq

inductive UnlockPc (T : Type) where
  | read
  | dropShared (lock : LockWord)
  | clearOwner (lock : LockWord)
  | dropExclusive (lock : LockWord)
  | seize (lock : LockWord)
  | decrement (lock : LockWord)
  | chain (p : ChainPc T)
  deriving DecidableEq

inductive AbortPc where
  | read
  | claim (lock : LockWord)
  | switch
  | unlink (p : UnlinkPc)
  | mark
  | clear
  deriving DecidableEq

inductive Pc (T : Type) where
  | idle (ret : Ret)
  | lockEx (kind : ExKind) (p : LockExPc)
  | lockSh (attempt : Bool) (p : LockShPc)
  | downgrade (p : DowngradePc)
  | upgradeTry (p : UpgradePc)
  | unlock (p : UnlockPc T)
  | abort (link : T) (p : AbortPc)
  deriving DecidableEq

inductive Call (T : Type) where
  | linkInit
  | lockEx
  | lockExLink
  | lockExTry
  | spinlock
  | spinlockTry
  | lockSh
  | lockShTry
  | downgrade
  | upgradeTry
  | unlock
  | abortExLink (link : T)
  deriving DecidableEq

/-- A thread calls a function, or goes on; `error` is what a `tsleep` returns. -/
inductive Input (T : Type) where
  | call (c : Call T)
  | run (error : Bool)
  deriving DecidableEq

structure Outcome (T : Type) where
  mem : Mem T
  held : Held
  pc : Pc T

/-- A lock is given back: an exclusive one while there is one. -/
def Held.release (h : Held) : Held :=
  if 0 < h.ex then { h with ex := h.ex - 1 } else { h with sh := h.sh - 1 }

section Steps

variable {T : Type} [DecidableEq T]

def Mem.setLink (m : Mem T) (w : T) (f : Link T → Link T) : Mem T :=
  { m with link := Function.update m.link w (f (m.link w)) }

def Mem.clearExlink (m : Mem T) : Mem T :=
  { m with lock := { m.lock with exlink := false } }

/-- The statements that take a link out of the queue.  At the end it is known
whether the link was the only one. -/
def unlinkStep (m : Mem T) (w : T) : UnlinkPc → Option (Mem T × (UnlinkPc ⊕ Bool))
  | .test =>
    if (m.link w).next = some w then some (m, .inl .alone)
    else some (m, .inl .head)
  | .alone => some ({ m with head := none }, .inr true)
  | .head => some ({ m with head := (m.link w).next }, .inl .nextPrev)
  | .nextPrev =>
    (m.link w).next.map fun n =>
      (m.setLink n fun l => { l with prev := (m.link w).prev }, .inl .prevNext)
  | .prevNext =>
    (m.link w).prev.map fun p =>
      (m.setLink p fun l => { l with next := (m.link w).next }, .inr false)

/-- `mtx_delete_link`; at the end there is no next point. -/
def deleteStep (m : Mem T) (t : T) : DeletePc → Option (Mem T × Option DeletePc)
  | .read =>
    if m.lock.exlink then some (m, some .read) else some (m, some (.claim m.lock))
  | .claim lock =>
    if m.lock = lock then
      some ({ m with lock := { lock with exlink := true } }, some .check)
    else some (m, some .read)
  | .check =>
    if (m.link t).state = .linked then some (m, some (.unlink .test))
    else some (m, some .clear)
  | .unlink p =>
    (unlinkStep m t p).map fun r =>
      (r.1, some (match r.2 with
        | .inl p => .unlink p
        | .inr _ => .setIdle))
  | .setIdle => some (m.setLink t fun l => { l with state := .idle }, some .clear)
  | .clear => some (m.clearExlink, none)

/-- Where a waiter goes on in `mtx_delete_link`, or behind it. -/
def afterDelete (error : Bool) : Option DeletePc → LockExPc
  | some p => .delete error p
  | none => .testAcquired error

def contended (kind : ExKind) (lock : LockWord) : Pc T :=
  match kind with
  | .block => if lock.exlink then .lockEx .block .read else .lockEx .block (.join lock)
  | .spin => .lockEx .spin .read
  | .attempt => .idle .eagain
  | .spinAttempt => .idle .eagain

def lockExStep (t : T) (m : Mem T) (held : Held) (kind : ExKind) (error : Bool) :
    LockExPc → Option (Outcome T)
  | .init =>
    some ⟨m.setLink t fun l => { l with state := .idle }, held, .lockEx kind .read⟩
  | .read =>
    if m.lock = .free then some ⟨m, held, .lockEx kind .claim⟩
    else if m.lock.exclusive then some ⟨m, held, .lockEx kind (.owner m.lock)⟩
    else some ⟨m, held, contended kind m.lock⟩
  | .claim =>
    if m.lock = .free then
      some ⟨{ m with lock := .owned }, { held with ex := held.ex + 1 }, .lockEx kind .setOwner⟩
    else some ⟨m, held, .lockEx kind .read⟩
  | .setOwner => some ⟨{ m with owner := some t }, held, .idle .ok⟩
  | .owner lock =>
    if m.owner = some t then
      if lock.count = mtxMask then none
      else some ⟨m, held, .lockEx kind (.recurse lock)⟩
    else some ⟨m, held, contended kind lock⟩
  | .recurse lock =>
    if m.lock = lock then
      some ⟨{ m with lock := { lock with count := lock.count + 1 } },
        { held with ex := held.ex + 1 }, .idle .ok⟩
    else some ⟨m, held, .lockEx kind .read⟩
  | .join lock =>
    if m.lock = lock then
      some ⟨{ m with lock := { lock with exwanted := true, exlink := true } }, held,
        .lockEx kind .checkAborted⟩
    else some ⟨m, held, .lockEx kind .read⟩
  | .checkAborted =>
    if (m.link t).state = .aborted then some ⟨m, held, .lockEx kind .dropLink⟩
    else some ⟨m, held, .lockEx kind .setLinkOwner⟩
  | .dropLink => some ⟨m.clearExlink, held, .lockEx kind .testHead⟩
  | .testHead =>
    if m.head = none then some ⟨m, held, .lockEx kind .dropWanted⟩
    else some ⟨m, held, .idle .enolck⟩
  | .dropWanted =>
    some ⟨{ m with lock := { m.lock with exwanted := false } }, held, .idle .enolck⟩
  | .setLinkOwner =>
    some ⟨m.setLink t fun l => { l with owner := some t }, held, .lockEx kind .setLinked⟩
  | .setLinked =>
    some ⟨m.setLink t fun l => { l with state := .linked }, held, .lockEx kind .testQueue⟩
  | .testQueue =>
    if m.head = none then some ⟨m, held, .lockEx kind .setNextSelf⟩
    else some ⟨m, held, .lockEx kind .setNext⟩
  | .setNext =>
    some ⟨m.setLink t fun l => { l with next := m.head }, held, .lockEx kind .setPrev⟩
  | .setPrev =>
    (m.link t).next.map fun n =>
      ⟨m.setLink t fun l => { l with prev := (m.link n).prev }, held, .lockEx kind .setNextPrev⟩
  | .setNextPrev =>
    (m.link t).next.map fun n =>
      ⟨m.setLink n fun l => { l with prev := some t }, held, .lockEx kind .setPrevNext⟩
  | .setPrevNext =>
    (m.link t).prev.map fun p =>
      ⟨m.setLink p fun l => { l with next := some t }, held, .lockEx kind .release⟩
  | .setNextSelf =>
    some ⟨m.setLink t fun l => { l with next := some t }, held, .lockEx kind .setPrevSelf⟩
  | .setPrevSelf =>
    some ⟨m.setLink t fun l => { l with prev := some t }, held, .lockEx kind .setHead⟩
  | .setHead => some ⟨{ m with head := some t }, held, .lockEx kind .release⟩
  | .release => some ⟨m.clearExlink, held, .lockEx kind .sleep⟩
  | .sleep => some ⟨m, held, .lockEx kind (.woke error)⟩
  | .woke e =>
    if (m.link t).state = .linked then some ⟨m, held, .lockEx kind (.delete e .read)⟩
    else some ⟨m, held, .lockEx kind (.testAcquired e)⟩
  | .delete e p =>
    (deleteStep m t p).map fun r =>
      ⟨r.1, held, .lockEx kind (afterDelete e r.2)⟩
  | .testAcquired e =>
    if (m.link t).state = .acquired then some ⟨m, held, .lockEx kind .assertOwner⟩
    else some ⟨m, held, .lockEx kind (.testAborted e)⟩
  | .assertOwner =>
    if m.owner = (m.link t).owner then
      some ⟨m, { held with ex := held.ex + 1 }, .idle .ok⟩
    else none
  | .testAborted e =>
    if (m.link t).state = .aborted then some ⟨m, held, .idle .enolck⟩
    else if e then some ⟨m, held, .idle .interrupted⟩
    else some ⟨m, held, .lockEx kind .read⟩

def lockShStep (m : Mem T) (held : Held) (attempt error : Bool) : LockShPc → Option (Outcome T)
  | .read =>
    if m.lock.exclusive then
      if attempt then some ⟨m, held, .idle .eagain⟩
      else some ⟨m, held, .lockSh attempt (.want m.lock)⟩
    else if m.lock.count = mtxMask then none
    else some ⟨m, held, .lockSh attempt (.claim m.lock)⟩
  | .claim lock =>
    if m.lock = lock then
      some ⟨{ m with lock := { lock with count := lock.count + 1 } },
        { held with sh := held.sh + 1 }, .idle .ok⟩
    else some ⟨m, held, .lockSh attempt .read⟩
  | .want lock =>
    if m.lock = lock then
      some ⟨{ m with lock := { lock with shwanted := true } }, held, .lockSh attempt .sleep⟩
    else some ⟨m, held, .lockSh attempt .read⟩
  | .sleep =>
    if error then some ⟨m, held, .idle .interrupted⟩
    else some ⟨m, held, .lockSh attempt .read⟩

def downgradeStep (t : T) (m : Mem T) (held : Held) : DowngradePc → Option (Outcome T)
  | .read =>
    if m.lock.exclusive then some ⟨m, held, .downgrade (.assertOwner m.lock)⟩
    else if m.lock.count = 0 then none
    else some ⟨m, held, .idle .ok⟩
  | .assertOwner lock =>
    if m.owner = some t then some ⟨m, held, .downgrade (.swap lock)⟩ else none
  | .swap lock =>
    if m.lock = lock then
      some ⟨{ m with lock := { lock with exclusive := false, shwanted := false } },
        ⟨0, held.ex + held.sh⟩, .idle .ok⟩
    else some ⟨m, held, .downgrade .read⟩

def upgradeTryStep (t : T) (m : Mem T) (held : Held) : UpgradePc → Option (Outcome T)
  | .read =>
    if { m.lock with exwanted := false } = ⟨false, false, false, false, 1⟩ then
      some ⟨m, held, .upgradeTry (.swap m.lock)⟩
    else if m.lock.exclusive then some ⟨m, held, .upgradeTry .assertOwner⟩
    else some ⟨m, held, .idle .edeadlk⟩
  | .swap lock =>
    if m.lock = lock then
      some ⟨{ m with lock := { lock with exclusive := true } },
        ⟨held.ex + 1, held.sh - 1⟩, .upgradeTry .setOwner⟩
    else some ⟨m, held, .upgradeTry .read⟩
  | .setOwner => some ⟨{ m with owner := some t }, held, .idle .ok⟩
  | .assertOwner =>
    if m.owner = some t then some ⟨m, held, .idle .ok⟩ else none

/-- `mtx_chain_link`, called by `_mtx_unlock`. -/
def chainStep (m : Mem T) (held : Held) : ChainPc T → Option (Outcome T)
  | .head =>
    match m.head with
    | none => some ⟨m, held, .unlock (.chain (.read none true))⟩
    | some w => some ⟨m, held, .unlock (.chain (.assertLinked w))⟩
  | .assertLinked w =>
    if (m.link w).state = .linked then
      some ⟨m, held, .unlock (.chain (.unlink w .test))⟩
    else none
  | .unlink w p =>
    (unlinkStep m w p).map fun r =>
      ⟨r.1, held, .unlock (.chain (match r.2 with
        | .inl p => .unlink w p
        | .inr alone => .setAcquired w alone))⟩
  | .setAcquired w exwanted =>
    some ⟨m.setLink w fun l => { l with state := .acquired }, held,
      .unlock (.chain (.setOwner w exwanted))⟩
  | .setOwner w exwanted =>
    some ⟨{ m with owner := (m.link w).owner }, held, .unlock (.chain (.read (some w) exwanted))⟩
  | .read link exwanted =>
    some ⟨m, held, .unlock (.chain (.swap link exwanted m.lock))⟩
  | .swap (some w) exwanted lock =>
    if m.lock = lock then
      some ⟨{ m with
        lock := { lock with
          exlink := false
          exwanted := lock.exwanted && !exwanted } }, held, .idle .ok⟩
    else some ⟨m, held, .unlock (.chain (.read (some w) exwanted))⟩
  | .swap none exwanted lock =>
    if m.lock = lock then
      -- clearing bit 0 of the count
      some ⟨{ m with lock := ⟨false, false, false, false, lock.count / 2 * 2⟩ }, held,
        if lock.shwanted then .unlock (.chain .clearOwner) else .idle .ok⟩
    else some ⟨m, held, .unlock (.chain (.read none exwanted))⟩
  | .clearOwner => some ⟨{ m with owner := none }, held, .idle .ok⟩

def unlockStep (m : Mem T) (held : Held) : UnlockPc T → Option (Outcome T)
  | .read =>
    let lock := m.lock
    if lock.count = 1 then
      if lock.exwanted then
        if lock.exlink then some ⟨m, held, .unlock .read⟩
        else some ⟨m, held, .unlock (.seize lock)⟩
      else if lock.exclusive then some ⟨m, held, .unlock (.clearOwner lock)⟩
      else some ⟨m, held, .unlock (.dropShared lock)⟩
    else if lock.count = 0 then none
    else some ⟨m, held, .unlock (.decrement lock)⟩
  | .dropShared lock =>
    if m.lock = lock then
      some ⟨{ m with lock := { LockWord.free with exlink := lock.exlink } },
        held.release, .idle .ok⟩
    else some ⟨m, held, .unlock .read⟩
  | .clearOwner lock =>
    some ⟨{ m with owner := none }, held, .unlock (.dropExclusive lock)⟩
  | .dropExclusive lock =>
    if m.lock = lock then
      some ⟨{ m with lock := { LockWord.free with exlink := lock.exlink } },
        held.release, .idle .ok⟩
    else some ⟨m, held, .unlock .read⟩
  | .seize lock =>
    if m.lock = lock then
      some ⟨{ m with lock := { lock with exclusive := true, exlink := true } },
        held.release, .unlock (.chain .head)⟩
    else some ⟨m, held, .unlock .read⟩
  | .decrement lock =>
    if m.lock = lock then
      some ⟨{ m with lock := { lock with count := lock.count - 1 } }, held.release, .idle .ok⟩
    else some ⟨m, held, .unlock .read⟩
  | .chain p => chainStep m held p

/-- `mtx_abort_ex_link`, on the link of `w`. -/
def abortStep (m : Mem T) (held : Held) (w : T) : AbortPc → Option (Outcome T)
  | .read =>
    if m.lock.exlink then some ⟨m, held, .abort w .read⟩
    else some ⟨m, held, .abort w (.claim m.lock)⟩
  | .claim lock =>
    if m.lock = lock then
      some ⟨{ m with lock := { lock with exlink := true } }, held, .abort w .switch⟩
    else some ⟨m, held, .abort w .read⟩
  | .switch =>
    match (m.link w).state with
    | .idle => some ⟨m, held, .abort w .mark⟩
    | .linked => some ⟨m, held, .abort w (.unlink .test)⟩
    | .acquired => some ⟨m, held, .abort w .clear⟩
    | .aborted => some ⟨m, held, .abort w .clear⟩
  | .unlink p =>
    (unlinkStep m w p).map fun r =>
      ⟨r.1, held, .abort w (match r.2 with
        | .inl p => .unlink p
        | .inr _ => .mark)⟩
  | .mark =>
    some ⟨m.setLink w fun l => { l with state := .aborted }, held, .abort w .clear⟩
  | .clear => some ⟨m.clearExlink, held, .idle .ok⟩

def callStep (t : T) (m : Mem T) (held : Held) : Call T → Outcome T
  | .linkInit =>
    ⟨m.setLink t fun l => { l with state := .idle }, held, .idle .ok⟩
  | .lockEx => ⟨m, held, .lockEx .block .init⟩
  | .lockExLink => ⟨m, held, .lockEx .block .read⟩
  | .lockExTry => ⟨m, held, .lockEx .attempt .read⟩
  | .spinlock => ⟨m, held, .lockEx .spin .read⟩
  | .spinlockTry => ⟨m, held, .lockEx .spinAttempt .read⟩
  | .lockSh => ⟨m, held, .lockSh false .read⟩
  | .lockShTry => ⟨m, held, .lockSh true .read⟩
  | .downgrade => ⟨m, held, .downgrade .read⟩
  | .upgradeTry => ⟨m, held, .upgradeTry .read⟩
  | .unlock => ⟨m, held, .unlock .read⟩
  | .abortExLink w => ⟨m, held, .abort w .read⟩

def pcStep (t : T) (m : Mem T) (held : Held) : Pc T → Input T → Option (Outcome T)
  | .idle _, .call c => some (callStep t m held c)
  | .idle _, .run _ => none
  | _, .call _ => none
  | .lockEx kind p, .run error => lockExStep t m held kind error p
  | .lockSh attempt p, .run error => lockShStep m held attempt error p
  | .downgrade p, .run _ => downgradeStep t m held p
  | .upgradeTry p, .run _ => upgradeTryStep t m held p
  | .unlock p, .run _ => unlockStep m held p
  | .abort w p, .run _ => abortStep m held w p

end Steps

structure State (T : Type) where
  mem : Mem T
  held : T → Held
  pc : T → Pc T

section System

variable {T : Type} [DecidableEq T]

def State.next (s : State T) (e : T × Input T) : Option (State T) :=
  (pcStep e.1 s.mem (s.held e.1) (s.pc e.1) e.2).map fun o =>
    { mem := o.mem
      held := Function.update s.held e.1 o.held
      pc := Function.update s.pc e.1 o.pc }

structure State.Initial (s : State T) : Prop where
  lock : s.mem.lock = .free
  owner : s.mem.owner = none
  head : s.mem.head = none
  state : ∀ t, (s.mem.link t).state = .idle
  held : ∀ t, s.held t = ⟨0, 0⟩
  pc : ∀ t, s.pc t = .idle .ok

/-- Threads unlock, downgrade and upgrade only what they hold. -/
def State.Holding (s : State T) (e : T × Input T) : Prop :=
  match e.2 with
  | .call .unlock => 0 < (s.held e.1).ex + (s.held e.1).sh
  | .call .downgrade => 0 < (s.held e.1).ex + (s.held e.1).sh
  | .call .upgradeTry => 0 < (s.held e.1).ex + (s.held e.1).sh
  | _ => True

instance (s : State T) (e : T × Input T) : Decidable (s.Holding e) := by
  unfold State.Holding
  split <;> infer_instance

/-- A thread without an exclusive hold does not ask for one while `mtx_owner`
still names it. -/
def State.Unnamed (s : State T) (e : T × Input T) : Prop :=
  match e.2 with
  | .call .lockEx | .call .lockExLink | .call .lockExTry | .call .spinlock
  | .call .spinlockTry => (s.held e.1).ex = 0 → s.mem.owner ≠ some e.1
  | _ => True

instance (s : State T) (e : T × Input T) : Decidable (s.Unnamed e) := by
  unfold State.Unnamed
  split <;> infer_instance

/-- One thread that holds the mutex exclusively is the only one that holds it. -/
def State.Exclusive (s : State T) : Prop :=
  ∀ t, 0 < (s.held t).ex → ∀ u, u ≠ t → s.held u = ⟨0, 0⟩

end System

end DragonFly.Mutex
