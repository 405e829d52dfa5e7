import DragonFly.EventSystem

/-!
# Locks of the lock manager

`lockmgr` and `undo_upreq` of `kern_lock.c` on one lock.  A thread stands in front of one
access to `lk_count` or to `lk_lockholder`, or in `tsleep`.  The value of `lk_count` that it
has read travels with it to the compare and set that follows.  What the threads hold, and
whether another thread had the lock exclusively during a call, is kept beside the code.
-/

namespace DragonFly.Lockmgr

open Function

structure LockCount where
  exreq : Bool
  shreq : Bool
  upreq : Bool
  excl : Bool
  upgrant : Bool
  mask : ℕ
  deriving DecidableEq

def lkcMask : ℕ := 0x07FFFFFF

namespace LockCount

def zero : LockCount := ⟨false, false, false, false, false, 0⟩

/-- `count + 1`: past `LKC_MASK` the carry runs through the flags. -/
def inc (c : LockCount) : LockCount :=
  if c.mask < lkcMask then { c with mask := c.mask + 1 }
  else
    let c := { c with mask := 0 }
    if !c.upgrant then { c with upgrant := true }
    else if !c.excl then { c with upgrant := false, excl := true }
    else if !c.upreq then { c with upgrant := false, excl := false, upreq := true }
    else if !c.shreq then
      { c with upgrant := false, excl := false, upreq := false, shreq := true }
    else if !c.exreq then ⟨true, false, false, false, false, 0⟩
    else zero

/-- `count - 1` where `LKC_MASK` is not zero. -/
def dec (c : LockCount) : LockCount :=
  { c with mask := c.mask - 1 }

end LockCount

inductive Errno
  | ebusy
  | enolck
  -- what `tsleep` returns for a signal or a timeout
  | interrupted
  | wouldblock
  deriving DecidableEq

inductive LockType
  | shared
  | exclusive
  | upgrade
  | exclupgrade
  | downgrade
  | release
  | waitupgrade
  deriving DecidableEq

/-- `flags` with the parts of `extflags` that are looked at, `TDF_DEADLKTREAT`, and `error`. -/
structure Frame where
  type : LockType
  nowait : Bool
  sleepfail : Bool
  canrecurse : Bool
  deadlktreat : Bool
  error : Option Errno
  deriving DecidableEq

/-- The compare and set instructions, by what they do when they succeed. -/
inductive Deed
  | share
  | waitShared
  | acquire
  | waitExclusive
  | downgrade
  | upgrade
  -- `LK_UPGRADE` gives up the shared lock and asks for the exclusive one
  | request
  | takeGrant
  | checkGrant
  | undoGrant
  | undoRequest
  | releaseLast
  | releaseGrant
  | releaseOne
  deriving DecidableEq

inductive Sleep
  | plain
  -- the sleep of `LK_UPGRADE`, with the `LKC_UPREQ` bit of the value that was replaced
  | request (upreq : Bool)
  | grant
  deriving DecidableEq

inductive Pc
  -- outside of `lockmgr`, with the last value it returned
  | idle (result : Option Errno)
  | again (f : Frame)
  | readHolder (f : Frame) (count : LockCount)
  | cmpset (f : Frame) (count : LockCount) (deed : Deed)
  -- `atomic_add_int(&lkp->lk_count, 1)` on a recursive lock
  | recurse (f : Frame)
  -- `lkp->lk_lockholder = td` in front of the return
  | setHolder (f : Frame)
  -- `lkp->lk_lockholder = NULL` in front of a compare and set
  | clearHolder (f : Frame) (count : LockCount) (deed : Deed)
  -- `lkp->lk_lockholder = otd` after it has failed
  | restoreHolder (f : Frame) (deed : Deed)
  | asleep (f : Frame) (sleep : Sleep)
  | undo (f : Frame)
  | panicked
  deriving DecidableEq

structure Held where
  ex : ℕ
  sh : ℕ
  deriving DecidableEq

namespace Deed

/-- The value that is stored in place of `count`. -/
def word (count : LockCount) : Deed → LockCount
  | .share => count.inc
  | .waitShared => { count with shreq := true }
  | .acquire => { count.inc with excl := true }
  | .waitExclusive => { count with exreq := true }
  | .downgrade => { count with excl := false, shreq := false }
  | .upgrade => { count with excl := true }
  | .request =>
    if count.upreq ∧ count.mask = 1 then
      { count with exreq := true, excl := true, upgrant := true, upreq := false }
    else if count.upreq then { count.dec with exreq := true }
    else { count.dec with upreq := true }
  | .takeGrant => { count with upgrant := false }
  | .checkGrant => count
  | .undoGrant => { count with upgrant := false }
  | .undoRequest =>
    if count.excl ∨ count.exreq then { count with upreq := false }
    else { count with upreq := false, shreq := false }
  | .releaseLast => { count.dec with excl := false, exreq := false, shreq := false }
  | .releaseGrant => { count with upreq := false, excl := true, upgrant := true }
  | .releaseOne => count.dec

/-- What the thread holds after the replacement of `count`. -/
def held (count : LockCount) (h : Held) : Deed → Held
  | .share => { h with sh := h.sh + 1 }
  | .acquire => { h with ex := h.ex + 1 }
  | .downgrade => ⟨h.ex - 1, h.sh + 1⟩
  | .upgrade => ⟨h.ex + 1, h.sh - 1⟩
  | .request => { h with sh := h.sh - 1 }
  | .takeGrant => { h with ex := h.ex + 1 }
  | .undoGrant => { h with ex := h.ex + 1 }
  | .releaseLast | .releaseGrant | .releaseOne =>
    if count.excl then { h with ex := h.ex - 1 } else { h with sh := h.sh - 1 }
  | .waitShared | .waitExclusive | .checkGrant | .undoRequest => h

def success (f : Frame) (count : LockCount) : Deed → Pc
  | .share => .idle f.error
  | .waitShared => .asleep f .plain
  | .acquire => .setHolder f
  | .waitExclusive => .asleep f .plain
  | .downgrade => .idle f.error
  | .upgrade => .setHolder f
  | .request => .asleep f (.request count.upreq)
  | .takeGrant => if count.excl then .setHolder f else .panicked
  | .checkGrant => .asleep f .grant
  | .undoGrant => .again { f with type := .release }
  | .undoRequest => .idle f.error
  | .releaseLast => .idle f.error
  | .releaseGrant => .idle f.error
  | .releaseOne => .idle f.error

def failure (f : Frame) (count : LockCount) : Deed → Pc
  | .downgrade => .restoreHolder f .downgrade
  | .undoGrant => .undo f
  | .undoRequest => .undo f
  | .releaseLast => if count.excl then .restoreHolder f .releaseLast else .again f
  | .releaseGrant => if count.excl then .restoreHolder f .releaseGrant else .again f
  | _ => .again f

end Deed

/-! ## The cases of the switch, after `count = lkp->lk_count` -/

variable (f : Frame)

section

variable (count : LockCount)

def lkShared : Pc :=
  if !count.exreq && !count.upreq && !count.excl then .cmpset f count .share
  else .readHolder f count

def lkExclusive : Pc :=
  if count = LockCount.zero then .cmpset f count .acquire else .readHolder f count

def lkUpgrade : Pc :=
  if !count.upreq && !count.excl && count.mask == 1 then .cmpset f count .upgrade
  else if count.excl then .readHolder f count
  else if count.mask = 0 then .panicked
  else if f.nowait then .again { f with type := .release, error := some .ebusy }
  else .cmpset f count .request

def lkExclupgrade : Pc :=
  if count.upreq then .again { f with type := .release, error := some .ebusy }
  else lkUpgrade f count

def lkWaitupgrade : Pc :=
  if count.upgrant then .cmpset f count .takeGrant else .cmpset f count .checkGrant

def lkRelease : Pc :=
  if count.mask = 0 then .panicked
  else if count.excl then .readHolder f count
  else if !count.upreq && count.mask == 1 then .cmpset f count .releaseLast
  else if count.upreq && count.mask == 1 then .cmpset f count .releaseGrant
  else .cmpset f count .releaseOne

def lockmgrSwitch : Pc :=
  match f.type with
  | .shared => lkShared f count
  | .exclusive => lkExclusive f count
  | .upgrade => lkUpgrade f count
  | .exclupgrade => lkExclupgrade f count
  | .downgrade => .readHolder f count
  | .release => lkRelease f count
  | .waitupgrade => lkWaitupgrade f count

/-- The thread finds itself in `lk_lockholder` when it asks for the lock. -/
def lockAgainstMyself : Pc :=
  if !count.excl then .panicked
  else if !f.canrecurse then if f.nowait then .idle (some .ebusy) else .panicked
  else .recurse f

def afterHolder (mine : Bool) : Pc :=
  match f.type with
  | .shared =>
    if mine then lockAgainstMyself f count
    else if count.excl || (!f.deadlktreat && (count.exreq || count.upreq)) then
      if f.nowait then .idle (some .ebusy) else .cmpset f count .waitShared
    else .cmpset f count .share
  | .exclusive =>
    if mine then lockAgainstMyself f count
    else if f.nowait then .idle (some .ebusy)
    else .cmpset f count .waitExclusive
  | .downgrade =>
    if !mine || !count.excl || count.mask != 1 then .panicked
    else .clearHolder f count .downgrade
  | .upgrade | .exclupgrade => if mine then .idle f.error else .panicked
  | .release =>
    if !mine then .panicked
    else if !count.upreq && count.mask == 1 then .clearHolder f count .releaseLast
    else if count.upreq && count.mask == 1 then .clearHolder f count .releaseGrant
    else .cmpset f count .releaseOne
  | .waitupgrade => .panicked

/-- After `lkp->lk_lockholder = otd`.  The last exclusive release under an upgrade request
does not try again. -/
def afterRestore : Deed → Pc
  | .releaseGrant => .idle f.error
  | _ => .again f

def sleepError (result : Option Errno) : Option Errno :=
  result.or (if f.sleepfail then some .enolck else none)

def afterSleep (sleep : Sleep) (result : Option Errno) : Pc :=
  match sleepError f result, sleep with
  | some e, .plain => .idle (some e)
  | none, .plain => .again f
  | some e, .request _ => .idle (some e)
  | none, .request upreq =>
    .again { f with type := if upreq then .exclusive else .waitupgrade }
  | some e, .grant => .undo { f with error := some e }
  | none, .grant => .again f

def afterUndoRead : Pc :=
  if count.upgrant then .cmpset f count .undoGrant
  else if count.upreq && count.mask != 0 then .cmpset f count .undoRequest
  else .panicked

end

variable {T : Type}

structure Outcome (T : Type) where
  count : LockCount
  holder : Option T
  held : Held
  pc : Pc

def step [DecidableEq T] (t : T) (count : LockCount) (holder : Option T) (h : Held) :
    Pc → Option (Outcome T)
  | .idle _ => none
  | .again f => some ⟨count, holder, h, lockmgrSwitch f count⟩
  | .readHolder f c => some ⟨count, holder, h, afterHolder f c (holder = some t)⟩
  | .cmpset f c deed =>
    if count = c then some ⟨deed.word c, holder, deed.held c h, deed.success f c⟩
    else some ⟨count, holder, h, deed.failure f c⟩
  | .recurse f => some ⟨count.inc, holder, { h with ex := h.ex + 1 }, .idle f.error⟩
  | .setHolder f => some ⟨count, some t, h, .idle f.error⟩
  | .clearHolder f c deed => some ⟨count, none, h, .cmpset f c deed⟩
  | .restoreHolder f deed => some ⟨count, some t, h, afterRestore f deed⟩
  | .asleep _ _ => none
  | .undo f => some ⟨count, holder, h, afterUndoRead f count⟩
  | .panicked => none

/-- The types of request that a caller makes, and what it has to hold for them. -/
def MayCall (h : Held) : LockType → Prop
  | .shared | .exclusive => True
  | .upgrade | .exclupgrade | .release => 0 < h.ex + h.sh
  | .downgrade => 0 < h.ex
  | .waitupgrade => False

instance (h : Held) (type : LockType) : Decidable (MayCall h type) :=
  match type with
  | .shared | .exclusive => instDecidableTrue
  | .upgrade | .exclupgrade | .release => inferInstanceAs (Decidable (0 < h.ex + h.sh))
  | .downgrade => inferInstanceAs (Decidable (0 < h.ex))
  | .waitupgrade => instDecidableFalse

structure Request where
  type : LockType
  nowait : Bool
  sleepfail : Bool
  canrecurse : Bool
  deadlktreat : Bool
  deriving DecidableEq

def Request.frame (r : Request) : Frame :=
  ⟨r.type, r.nowait, r.sleepfail, r.canrecurse, r.deadlktreat, none⟩

inductive Input
  | call (r : Request)
  | step
  -- `tsleep` returns
  | wake (result : Option Errno)
  deriving DecidableEq

structure State (T : Type) where
  count : LockCount
  holder : Option T
  pc : T → Pc
  held : T → Held
  /-- The type of the last call. -/
  called : T → LockType
  /-- Another thread had the lock exclusively during the last call. -/
  intruded : T → Bool

namespace State

def initial : State T where
  count := .zero
  holder := none
  pc _ := .idle none
  held _ := ⟨0, 0⟩
  called _ := .shared
  intruded _ := false

def set [DecidableEq T] (s : State T) (t : T) (o : Outcome T) : State T :=
  { s with
    count := o.count
    holder := o.holder
    pc := update s.pc t o.pc
    held := update s.held t o.held }

/-- A thread inside of `lockmgr` notes whether another one has the lock exclusively. -/
def witness [Fintype T] [DecidableEq T] (s : State T) : State T :=
  { s with
    intruded := fun t =>
      s.intruded t ||
        match s.pc t with
        | .idle _ => false
        | _ => decide (∃ u, u ≠ t ∧ 0 < (s.held u).ex) }

def act [DecidableEq T] (s : State T) (t : T) : Input → Option (State T)
  | .call r =>
    match s.pc t with
    | .idle _ =>
      if MayCall (s.held t) r.type then
        some { s with
          pc := update s.pc t (.again r.frame)
          called := update s.called t r.type
          intruded := update s.intruded t false }
      else none
    | _ => none
  | .step => (step t s.count s.holder (s.held t) (s.pc t)).map (s.set t)
  | .wake result =>
    match s.pc t with
    | .asleep f sleep => some (s.set t ⟨s.count, s.holder, s.held t, afterSleep f sleep result⟩)
    | _ => none

def next [Fintype T] [DecidableEq T] (s : State T) (e : T × Input) : Option (State T) :=
  (s.act e.1 e.2).map witness

end State

abbrev Runs [Fintype T] [DecidableEq T] (allow : State T → T × Input → Prop) (s : State T) : Prop :=
  Reachable (· = State.initial) allow State.next s

end DragonFly.Lockmgr
