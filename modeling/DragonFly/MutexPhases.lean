import DragonFly.MutexModel

/-!
# Phases of a mutex thread

Exclusion does not depend on the pointers of the queue, nor on the bits that ask
for a wakeup.  What it depends on is kept here: a few fields of the memory, and the
phase a thread is in.  Every step of a thread is one of a small number of acts on
them.
-/

namespace DragonFly.Mutex

open Function

/-- What exclusion depends on. -/
@[ext]
structure Core (T : Type) where
  ex : Bool
  count : ℕ
  exlink : Bool
  owner : Option T
  state : T → LinkState
  linkOwner : T → Option T

def Mem.core {T : Type} (m : Mem T) : Core T where
  ex := m.lock.exclusive
  count := m.lock.count
  exlink := m.lock.exlink
  owner := m.owner
  state u := (m.link u).state
  linkOwner u := (m.link u).owner

inductive Phase (T : Type) where
  /-- Outside, or in a function that does not matter here. -/
  | free
  /-- About to give back, downgrade or upgrade a hold. -/
  | holding
  /-- In an exclusive lock function, without any claim. -/
  | entering
  /-- `mtx_owner` was this thread. -/
  | recursing
  /-- Granted, before the store to `mtx_owner`. -/
  | storing
  | joining
  | enlisting
  | joined
  | waiting
  | leaving
  | unlinking
  | left
  | woken
  | receiving
  | refused
  | chaining
  | picked (w : T)
  | handing (w : T)
  | chained
  | releasing
  | aborting (w : T)
  | delinking (w : T)
  | marking (w : T)
  | closing
  deriving DecidableEq

namespace Phase

variable {T : Type}

/-- The phases that hold `MTX_EXLINK`. -/
def ownsLink : Phase T → Bool
  | joining | enlisting | joined | leaving | unlinking | left => true
  | chaining | picked _ | handing _ | chained | releasing => true
  | aborting _ | delinking _ | marking _ | closing => true
  | _ => false

/-- The phases of `mtx_chain_link` in which the lock has no other owner. -/
def chains : Phase T → Bool
  | chaining | picked _ | releasing => true
  | _ => false

/-- The phases in which a link that is acquired is a grant. -/
def listens : Phase T → Bool
  | waiting | leaving | left | woken | receiving => true
  | _ => false

/-- The phases in which `mtx_owner` must not name a thread without a hold. -/
def seeks : Phase T → Bool
  | entering | joining | enlisting | joined | waiting => true
  | leaving | unlinking | left | woken | refused => true
  | _ => false

end Phase

def DeletePc.phase {T : Type} : DeletePc → Phase T
  | .read | .claim _ => .waiting
  | .check => .leaving
  | .unlink _ | .setIdle => .unlinking
  | .clear => .left

def LockExPc.phase {T : Type} : LockExPc → Phase T
  | .init | .read | .claim | .owner _ | .join _ | .testHead | .dropWanted => .entering
  | .setOwner => .storing
  | .recurse _ => .recursing
  | .checkAborted | .dropLink | .setLinkOwner => .joining
  | .setLinked => .enlisting
  | .testQueue | .setNext | .setPrev | .setNextPrev | .setPrevNext => .joined
  | .setNextSelf | .setPrevSelf | .setHead | .release => .joined
  | .sleep | .woke _ => .waiting
  | .delete _ p => p.phase
  | .testAcquired _ => .woken
  | .assertOwner => .receiving
  | .testAborted _ => .refused

def ChainPc.phase {T : Type} : ChainPc T → Phase T
  | .head | .assertLinked _ => .chaining
  | .unlink w _ | .setAcquired w _ => .picked w
  | .setOwner w _ => .handing w
  | .read (some _) _ | .swap (some _) _ _ => .chained
  | .read none _ | .swap none _ _ => .releasing
  | .clearOwner => .free

def Pc.phase {T : Type} : Pc T → Phase T
  | .idle _ => .free
  | .lockEx _ p => p.phase
  | .lockSh _ _ => .free
  | .downgrade _ => .holding
  | .upgradeTry .setOwner => .storing
  | .upgradeTry _ => .holding
  | .unlock (.chain p) => p.phase
  | .unlock _ => .holding
  | .abort _ .read | .abort _ (.claim _) => .free
  | .abort w .switch => .aborting w
  | .abort w (.unlink _) => .delinking w
  | .abort w .mark => .marking w
  | .abort _ .clear => .closing

def Pc.Knows {T : Type} : Pc T → Prop
  | .lockEx _ (.owner lock) => lock.exclusive = true
  | .lockEx _ (.recurse lock) => lock.exclusive = true
  | .lockEx _ (.join lock) => lock.exlink = false ∧ lock ≠ .free
  | .lockEx _ (.delete _ (.claim lock)) => lock.exlink = false
  | .lockSh _ (.claim lock) => lock.exclusive = false
  | .lockSh _ (.want lock) => lock.exclusive = true
  | .downgrade (.assertOwner lock) => lock.exclusive = true
  | .downgrade (.swap lock) => lock.exclusive = true
  | .upgradeTry (.swap lock) => lock.exclusive = false ∧ lock.count = 1
  | .unlock (.dropShared lock) => lock.count = 1 ∧ lock.exwanted = false
  | .unlock (.clearOwner lock) => lock.count = 1 ∧ lock.exwanted = false
  | .unlock (.dropExclusive lock) => lock.count = 1 ∧ lock.exwanted = false
  | .unlock (.seize lock) => lock.count = 1 ∧ lock.exlink = false ∧ lock.exwanted = true
  | .unlock (.decrement lock) => 2 ≤ lock.count
  | .abort _ (.claim lock) => lock.exlink = false
  | _ => True

section Acts

variable {T : Type} [DecidableEq T]

/-- Going from one phase to another without an effect. -/
inductive Moves (t : T) (c : Core T) (h : Held) : Phase T → Phase T → Prop
  | stay (p : Phase T) : Moves t c h p p
  | hold (hheld : 0 < h.ex + h.sh) : Moves t c h .free .holding
  | enter (howner : h.ex = 0 → c.owner ≠ some t) : Moves t c h .free .entering
  | giveUp : Moves t c h .entering .free
  | confirm (howner : c.owner = some t) : Moves t c h .entering .recursing
  | retry : Moves t c h .recursing .entering
  | finish : Moves t c h .holding .free
  | notLinked (hstate : c.state t ≠ .linked) : Moves t c h .waiting .woken
  | stillLinked (hstate : c.state t = .linked) : Moves t c h .leaving .unlinking
  | gone (hstate : c.state t ≠ .linked) : Moves t c h .leaving .left
  | granted (hstate : c.state t = .acquired) : Moves t c h .woken .receiving
  | refuse (hstate : c.state t ≠ .acquired) : Moves t c h .woken .refused
  | again : Moves t c h .refused .entering
  | fail : Moves t c h .refused .free
  | pick (hstate : c.state w = .linked) : Moves t c h .chaining (.picked w)
  | empty : Moves t c h .chaining .releasing
  | abortIdle (hstate : c.state w = .idle) :
      Moves t c h (.aborting w) (.marking w)
  | abortLinked (hstate : c.state w = .linked) :
      Moves t c h (.aborting w) (.delinking w)
  | abortNone : Moves t c h (.aborting w) .closing
  | delinked : Moves t c h (.delinking w) (.marking w)

inductive Takes : Phase T → Phase T → Prop
  | join : Takes .entering .joining
  | delete : Takes .waiting .leaving
  | abort : Takes .free (.aborting w)

inductive Drops : Phase T → Phase T → Prop
  | abortJoin : Drops .joining .entering
  | join : Drops .joined .waiting
  | delete : Drops .left .woken
  | chain : Drops .chained .free
  | abort : Drops .closing .free

/-- What a step does to the core, to the holds of its thread and to its phase. -/
inductive Act (t : T) (c : Core T) (h : Held) :
    Phase T → Core T → Held → Phase T → Prop
  | move (hmove : Moves t c h p p') : Act t c h p c h p'
  | take (htake : Takes p p') (hexlink : c.exlink = false) :
      Act t c h p { c with exlink := true } h p'
  | drop (hdrop : Drops p p') :
      Act t c h p { c with exlink := false } h p'
  | claim (hcount : c.count = 0) :
      Act t c h .entering { c with ex := true, count := 1 }
        { h with ex := h.ex + 1 } .storing
  | store : Act t c h .storing { c with owner := some t } h .free
  | recurse (hex : c.ex = true) :
      Act t c h .recursing { c with count := c.count + 1 }
        { h with ex := h.ex + 1 } .free
  | receive (howner : c.owner = c.linkOwner t) :
      Act t c h .receiving c { h with ex := h.ex + 1 } .free
  | name :
      Act t c h .joining
        { c with linkOwner := update c.linkOwner t (some t) } h .enlisting
  | link :
      Act t c h .enlisting { c with state := update c.state t .linked } h .joined
  | unlink :
      Act t c h .unlinking { c with state := update c.state t .idle } h .left
  | init (hp : p = .free ∨ p = .entering) :
      Act t c h p { c with state := update c.state t .idle } h p
  | share (hex : c.ex = false) :
      Act t c h .free { c with count := c.count + 1 } { h with sh := h.sh + 1 } .free
  | downgrade (hex : c.ex = true) :
      Act t c h .holding { c with ex := false } ⟨0, h.ex + h.sh⟩ .free
  | upgrade (hex : c.ex = false) (hcount : c.count = 1) :
      Act t c h .holding { c with ex := true } ⟨h.ex + 1, h.sh - 1⟩ .storing
  | release (hcount : c.count = 1) :
      Act t c h .holding { c with ex := false, count := 0 } h.release .free
  | decrement (hcount : 2 ≤ c.count) :
      Act t c h .holding { c with count := c.count - 1 } h.release .free
  | seize (hcount : c.count = 1) (hexlink : c.exlink = false) :
      Act t c h .holding { c with ex := true, exlink := true } h.release .chaining
  | forget (hp : p = .free ∨ p = .holding) :
      Act t c h p { c with owner := none } h p
  | handOver :
      Act t c h (.picked w) { c with state := update c.state w .acquired } h (.handing w)
  | nameOwner :
      Act t c h (.handing w) { c with owner := c.linkOwner w } h .chained
  | vacate :
      Act t c h .releasing
        { c with ex := false, exlink := false, count := c.count / 2 * 2 } h .free
  | mark :
      Act t c h (.marking w) { c with state := update c.state w .aborted } h .closing

/-! ## The core under the stores of the code -/

theorem setLink_field (g : Link T → β) (m : Mem T) (w : T) (f : Link T → Link T) :
    (fun u => g ((m.setLink w f).link u)) =
      update (fun u => g (m.link u)) w (g (f (m.link w))) := by
  funext u
  exact Function.apply_update (fun _ => g) m.link w (f (m.link w)) u

theorem setLink_field_self (g : Link T → β) (m : Mem T) (w : T)
    (h : g (f (m.link w)) = g (m.link w)) :
    (fun u => g ((m.setLink w f).link u)) = fun u => g (m.link u) := by
  rw [setLink_field, h]
  exact update_eq_self w _

theorem core_setLink (m : Mem T) (w : T) (hstate : (f (m.link w)).state = (m.link w).state)
    (howner : (f (m.link w)).owner = (m.link w).owner) : (m.setLink w f).core = m.core := by
  rw [Mem.core, setLink_field_self Link.state m w hstate, setLink_field_self Link.owner m w howner]
  rfl

theorem core_setState (m : Mem T) (w : T) (st : LinkState) :
    (m.setLink w fun l => { l with state := st }).core =
      { m.core with state := update m.core.state w st } := by
  rw [Mem.core, setLink_field Link.state, setLink_field_self Link.owner m w rfl]
  rfl

theorem core_setLinkOwner (m : Mem T) (w : T) (o : Option T) :
    (m.setLink w fun l => { l with owner := o }).core =
      { m.core with linkOwner := update m.core.linkOwner w o } := by
  rw [Mem.core, setLink_field_self Link.state m w rfl, setLink_field Link.owner]
  rfl

theorem unlinkStep_core {w : T} (h : unlinkStep m w p = some (m', r)) : m'.core = m.core := by
  cases p with
  | test =>
    simp only [unlinkStep] at h
    split_ifs at h <;> cases h <;> rfl
  | alone | head =>
    cases h
    rfl
  | nextPrev | prevNext =>
    simp only [unlinkStep, Option.map_eq_some_iff] at h
    obtain ⟨n, -, heq⟩ := h
    cases heq
    exact core_setLink m n rfl rfl

/-- The calls a thread may make: it holds what it gives up, and a thread without an
exclusive hold does not ask for one while `mtx_owner` names it. -/
def MayCall (t : T) (m : Mem T) (h : Held) : Call T → Prop
  | .unlock | .downgrade | .upgradeTry => 0 < h.ex + h.sh
  | .lockEx | .lockExLink | .lockExTry | .spinlock | .spinlockTry =>
    h.ex = 0 → m.owner ≠ some t
  | _ => True

end Acts

end DragonFly.Mutex
