import DragonFly.EventSystem

/-!
# Kernel spin locks

The inline paths of `spinlock2.h` and the contested paths of `kern_spinlock.c` on the
word `counta`.  The low bits count holders and exclusive attempts, the bits from
`SPINLOCK_EXCLWAIT` up count the contested exclusive attempts, and the top bit says
that the low count is a shared one.  A thread stands in front of one atomic operation
or one plain read of the word.
-/

namespace DragonFly.Spinlock

def spinlockShared : BitVec 32 := 0x80000000

def spinlockExclwait : BitVec 32 := 0x00100000

inductive Pc
  | idle
  | exclusive
  | shared
  -- `spin_trylock`, in front of its compare and set
  | trylock
  -- `_spin_lock_quick`, in front of the addition and of the read that follows it
  | lock
  | lockTest
  -- `_spin_lock_contested`
  | contestAdd
  | contestClear
  | contestRead
  | contestSet (ovalue : BitVec 32)
  -- `_spin_lock_shared_quick` and `_spin_lock_shared_contested`
  | lockShared
  | sharedRead
  | sharedFirst
  | sharedNext (ovalue : BitVec 32)
  -- `spin_unlock_quick` and `spin_unlock_shared_quick`
  | unlock
  | unlockShared
  | unlockSharedTest
  | unlockSharedClear
  deriving DecidableEq

inductive Call
  | spinTrylock
  | spinLock
  | spinLockShared
  | spinUnlock
  | spinUnlockShared
  deriving DecidableEq

/-- A thread acquires a lock it does not have and releases only what it holds. -/
def Pc.call : Pc → Call → Option Pc
  | .idle, .spinTrylock => some .trylock
  | .idle, .spinLock => some .lock
  | .idle, .spinLockShared => some .lockShared
  | .exclusive, .spinUnlock => some .unlock
  | .shared, .spinUnlockShared => some .unlockShared
  | _, _ => none

/-- `atomic_cmpset_int`, with the places where the thread goes on. -/
def cmpset (counta old new : BitVec 32) (success failure : Pc) : BitVec 32 × Pc :=
  if counta = old then (new, success) else (counta, failure)

def step (counta : BitVec 32) : Pc → Option (BitVec 32 × Pc)
  | .idle => none
  | .exclusive => none
  | .shared => none
  | .trylock => some (cmpset counta 0 1 .exclusive .idle)
  | .lock => some (counta + 1, .lockTest)
  | .lockTest => some (counta, if counta ≠ 1 then .contestAdd else .exclusive)
  | .contestAdd => some (counta + (spinlockExclwait - 1), .contestClear)
  | .contestClear => some (counta &&& ~~~spinlockShared, .contestRead)
  | .contestRead =>
    some (counta,
      if counta &&& (spinlockExclwait - 1) = 0 then .contestSet counta else .contestRead)
  | .contestSet ovalue =>
    some (cmpset counta ovalue ((ovalue - spinlockExclwait) ||| 1) .exclusive .contestRead)
  | .lockShared => some (cmpset counta 0 (spinlockShared ||| 1) .shared .sharedRead)
  | .sharedRead =>
    some (counta, if counta = 0 then .sharedFirst
      else if counta &&& spinlockShared ≠ 0 then .sharedNext counta
      else .sharedRead)
  | .sharedFirst => some (cmpset counta 0 (spinlockShared ||| 1) .shared .sharedRead)
  | .sharedNext ovalue => some (cmpset counta ovalue (ovalue + 1) .shared .sharedRead)
  | .unlock => some (counta + (-1), .idle)
  | .unlockShared => some (counta + (-1), .unlockSharedTest)
  | .unlockSharedTest =>
    some (counta, if counta = spinlockShared then .unlockSharedClear else .idle)
  | .unlockSharedClear => some (cmpset counta spinlockShared 0 .idle .unlockSharedTest)

structure State (T : Type) where
  counta : BitVec 32
  pc : T → Pc

variable {T : Type}

namespace State

def initial : State T where
  counta := 0
  pc _ := .idle

def next [DecidableEq T] (s : State T) : T × Option Call → Option (State T)
  | (t, none) =>
    (step s.counta (s.pc t)).map fun (counta, p) =>
      { counta := counta, pc := Function.update s.pc t p }
  | (t, some c) =>
    ((s.pc t).call c).map fun p => { s with pc := Function.update s.pc t p }

end State

abbrev Runs [DecidableEq T] (s : State T) : Prop :=
  Reachable (· = State.initial) (fun _ _ => True) State.next s

end DragonFly.Spinlock
