import Mathlib

/-!
# Advisory byte-range locks

One pass of `lf_setlock`, from `restart` to the next sleep or the return, is one
function.  A range has an identity, which stands for its address; offsets are
integers, and owner 0 is the NULL pointer.  `none` is a failed assertion.
-/

namespace DragonFly.AdvLock

def llongMax : ℤ := 2 ^ 63 - 1

inductive LockType where
  | rdlck
  | unlck
  | wrlck
  deriving DecidableEq

structure LockFlags where
  wait : Bool
  posix : Bool
  noend : Bool
  deriving DecidableEq

structure LockfRange where
  lfId : ℕ
  lfType : LockType
  lfPosix : Bool
  lfNoend : Bool
  lfStart : ℤ
  lfEnd : ℤ
  lfOwner : ℕ
  deriving DecidableEq

/-- The arguments of `lf_setlock`, with `stop` for its `end`. -/
structure Request where
  owner : ℕ
  type : LockType
  flags : LockFlags
  start : ℤ
  stop : ℤ
  deriving DecidableEq

/-- A lock structure; `nextId` is the identity of the next range allocated. -/
structure Lockf where
  lfRange : List LockfRange
  lfBlocked : List LockfRange
  nextId : ℕ
  deriving DecidableEq

/-! ## Accounting -/

structure PosixCounts where
  uiPosixlocks : ℕ → ℤ
  pNumposixlocks : ℕ → ℤ

structure LockEnv where
  crUid : ℕ → ℕ
  rlimPosixlocks : ℕ → ℤ
  maxposixlocksperuid : ℤ

def PosixCounts.add (counts : PosixCounts) (uid owner : ℕ) (diff : ℤ) : PosixCounts where
  uiPosixlocks :=
    Function.update counts.uiPosixlocks uid (counts.uiPosixlocks uid + diff)
  pNumposixlocks :=
    Function.update counts.pNumposixlocks owner (counts.pNumposixlocks owner + diff)

/-- The flag is the return value: the limit does not allow the change. -/
def lfCountChange (env : LockEnv) (counts : PosixCounts) (owner : ℕ)
    (diff : ℤ) : Option (Bool × PosixCounts) :=
  if owner = 0 then some (false, counts)
  else
    let uid := env.crUid owner
    let max := min (env.rlimPosixlocks owner) env.maxposixlocksperuid
    if diff > 0 ∧ uid ≠ 0 ∧ max ≠ -1 ∧ counts.uiPosixlocks uid ≥ max then
      some (true, counts)
    else
      let counts' := counts.add uid owner diff
      if counts'.uiPosixlocks uid ≥ 0 ∧ counts'.pNumposixlocks owner ≥ 0 then
        some (false, counts')
      else none

/-! ## Ranges and lists of ranges -/

def lfMatch (range : LockfRange) (type : LockType) (flags : LockFlags) : Bool :=
  range.lfType = type ∧ range.lfPosix = flags.posix

def lfOverlap (range : LockfRange) (start stop : ℤ) : Bool :=
  (range.lfStart ≥ start ∧ range.lfStart ≤ stop) ∨ (start ≥ range.lfStart ∧ start ≤ range.lfEnd)

def Request.range (req : Request) (id : ℕ) : LockfRange where
  lfId := id
  lfType := req.type
  lfPosix := req.flags.posix
  lfNoend := req.flags.noend
  lfStart := req.start
  lfEnd := req.stop
  lfOwner := req.owner

def tailqRemove (id : ℕ) (list : List LockfRange) : List LockfRange :=
  list.filter fun range => range.lfId ≠ id

def tailqModify (id : ℕ) (f : LockfRange → LockfRange) (list : List LockfRange) : List LockfRange :=
  list.map fun range => if range.lfId = id then f range else range

/-- The elements before the one with the given identity, and those from it on. -/
def tailqSplit (id : ℕ) (list : List LockfRange) : List LockfRange × List LockfRange :=
  (list.takeWhile fun range => range.lfId ≠ id, list.dropWhile fun range => range.lfId ≠ id)

/-- The loop of `lf_insert` from the insertion point on. -/
def insertFrom (elm : LockfRange) : List LockfRange → List LockfRange
  | [] => [elm]
  | range :: rest =>
    if range.lfStart < elm.lfStart then range :: insertFrom elm rest
    else elm :: range :: rest

def lfInsert (list : List LockfRange) (elm : LockfRange)
    (insertPoint : Option ℕ) : List LockfRange :=
  match insertPoint with
  | none => list ++ [elm]
  | some id => (tailqSplit id list).1 ++ insertFrom elm (tailqSplit id list).2

/-! ## Looking for the place and for conflicts -/

structure Found where
  insertPoint : Option ℕ
  firstMatch : Option ℕ
  lastMatch : Option ℕ
  conflict : Option LockfRange
  deriving DecidableEq

def Found.empty : Found := ⟨none, none, none, none⟩

def Found.point (found : Found) (start : ℤ) (range : LockfRange) : Found :=
  if found.insertPoint = none ∧ range.lfStart ≥ start then
    { found with insertPoint := some range.lfId }
  else found

def Found.own (found : Found) (range : LockfRange) : Found :=
  { found with
    firstMatch := found.firstMatch.or (some range.lfId)
    lastMatch := some range.lfId }

/-- The first loop of `lf_setlock`. -/
def findRanges (req : Request) : List LockfRange → Found → Found
  | [], found => found
  | range :: rest, found =>
    let found := found.point req.start range
    if range.lfEnd < req.start then findRanges req rest found
    else if range.lfStart > req.stop then found
    else if range.lfOwner = req.owner then
      findRanges req rest (found.own range)
    else if req.type ≠ .unlck ∧
        (req.type = .wrlck ∨ range.lfType = .wrlck) then
      { found with conflict := some range }
    else findRanges req rest found

/-! ## Clipping -/

/-- The state of the clip loop: the list cut at `next`, the primary range, the
adjustment of the count, and whether waiters have to be woken. -/
structure ClipState where
  before : List LockfRange
  after : List LockfRange
  brange : Option LockfRange
  count : ℤ
  wakeupNeeded : Bool
  deriving DecidableEq

def posixCount (range : LockfRange) : ℤ :=
  if range.lfPosix then 1 else 0

/-- A range whose end is extended over `other`. -/
def LockfRange.extend (range other : LockfRange) : LockfRange :=
  { range with
    lfEnd := other.lfEnd
    lfNoend := range.lfNoend || other.lfNoend }

/-- Clip `range`, which starts before the request, or merge it with the primary
range; `st.after` is what follows `range`. -/
def clipLeft (req : Request) (range : LockfRange) (st : ClipState) : ClipState :=
  match st.brange with
  | some brange =>
    if range.lfEnd ≥ req.start - 1 ∧ lfMatch range req.type req.flags then
      { st with
        before :=
          tailqRemove brange.lfId st.before ++ [range.extend brange]
        after := tailqRemove brange.lfId st.after
        brange := some (range.extend brange)
        count := st.count - posixCount brange }
    else if range.lfEnd ≥ req.start then
      { st with
        before := st.before ++ [{ range with lfEnd := req.start - 1, lfNoend := false }] }
    else { st with before := st.before ++ [range] }
  | none =>
    if range.lfEnd ≥ req.start then
      { st with
        before := st.before ++ [{ range with lfEnd := req.start - 1 }] }
    else { st with before := st.before ++ [range] }

/-- Clip `range`, which ends after the request, or merge it with the primary
range. -/
def clipRight (req : Request) (range : LockfRange) (st : ClipState) : ClipState :=
  let clipped :=
    if range.lfStart ≤ req.stop then
      { st with
        after := insertFrom { range with lfStart := req.stop + 1 } st.after }
    else { st with after := range :: st.after }
  match st.brange with
  | some brange =>
    if range.lfStart ≤ req.stop + 1 ∧
        lfMatch range req.type req.flags then
      let extended := fun b : LockfRange => b.extend range
      { st with
        before := tailqModify brange.lfId extended st.before
        after := tailqModify brange.lfId extended st.after
        brange := some (brange.extend range)
        count := st.count - posixCount range }
    else clipped
  | none => clipped

/-- The clip loop; `fuel` bounds its passes. -/
def clipLoop (req : Request) (firstMatch lastMatch : ℕ) : ℕ → ClipState → Option ClipState
  | 0, st => if st.after = [] then some st else none
  | fuel + 1, st =>
    match st.after with
    | [] => some st
    | range :: rest =>
      let st := { st with after := rest }
      if range.lfOwner ≠ req.owner ∨
          st.brange.map LockfRange.lfId = some range.lfId then
        clipLoop req firstMatch lastMatch fuel
          { st with before := st.before ++ [range] }
      else
        let st := { st with
          wakeupNeeded := st.wakeupNeeded || (req.type = .unlck) ||
            (req.type = .rdlck ∧ range.lfType = .wrlck) }
        if range.lfStart < req.start then
          if range.lfId ≠ firstMatch then none
          else if range.lfId = lastMatch then
            some (clipLeft req range st)
          else
            clipLoop req firstMatch lastMatch fuel (clipLeft req range st)
        else if range.lfEnd > req.stop then
          if range.lfId ≠ lastMatch then none
          else some (clipRight req range st)
        else
          let st := { st with count := st.count - posixCount range }
          if range.lfId = lastMatch then some st
          else clipLoop req firstMatch lastMatch fuel st

/-! ## Merging with neighbours -/

def mergePrev (req : Request) (before : List LockfRange)
    (brange : LockfRange) : List LockfRange × LockfRange × ℤ :=
  match before.getLast? with
  | none => (before, brange, 0)
  | some range =>
    if range.lfOwner = req.owner ∧ range.lfEnd = brange.lfStart - 1 ∧
        lfMatch range req.type req.flags then
      (before.dropLast, range.extend brange, -posixCount brange)
    else (before, brange, 0)

def mergeNext (req : Request) (brange : LockfRange)
    (after : List LockfRange) : LockfRange × List LockfRange × ℤ :=
  match after with
  | [] => (brange, [], 0)
  | range :: rest =>
    if range.lfOwner = req.owner ∧ range.lfStart = brange.lfEnd + 1 ∧
        lfMatch range req.type req.flags then
      (brange.extend range, rest, -posixCount range)
    else (brange, range :: rest, 0)

/-- The list and the count after the attempt to merge adjacent ranges. -/
def mergeAdjacent (req : Request) (list : List LockfRange) : Option LockfRange → List LockfRange × ℤ
  | none => (list, 0)
  | some brange =>
    let before := (tailqSplit brange.lfId list).1
    let after := (tailqSplit brange.lfId list).2.tail
    let prev := mergePrev req before brange
    let next := mergeNext req prev.2.1 after
    (prev.1 ++ next.1 :: next.2.1, prev.2.2 + next.2.2)

/-! ## Setting a lock -/

inductive LockError where
  | eagain
  | edeadlk
  | enolck
  deriving DecidableEq

inductive Outcome where
  | ok
  | failed (error : LockError)
  | asleep
  deriving DecidableEq

structure LockState where
  lock : Lockf
  counts : PosixCounts

def lfWakeup (lock : Lockf) (start stop : ℤ) : Lockf :=
  { lock with
    lfBlocked := lock.lfBlocked.filter fun range =>
      !lfOverlap range start stop }

def doWakeup (req : Request) (wakeupNeeded : Bool) (st : LockState) : LockState :=
  if wakeupNeeded then
    { st with lock := lfWakeup st.lock req.start req.stop }
  else st

/-- No range of the owner overlaps the request. -/
def setNew (env : LockEnv) (st : LockState) (req : Request)
    (found : Found) : Option (LockState × Outcome) :=
  if req.type = .unlck then some (st, .ok)
  else
    let change :=
      if req.flags.posix then lfCountChange env st.counts req.owner 1
      else some (false, st.counts)
    match change with
    | none => none
    | some (true, _) => some (st, .failed .enolck)
    | some (false, counts) =>
      some ({ lock := { st.lock with
                lfRange := lfInsert st.lock.lfRange
                  (req.range st.lock.nextId) found.insertPoint
                nextId := st.lock.nextId + 1 }
              counts := counts }, .ok)

section

variable (req : Request) (list : List LockfRange)

def insertPrimary (id : ℕ) (insertPoint : Option ℕ) : List LockfRange :=
  if req.type = .unlck then list
  else lfInsert list (req.range id) insertPoint

/-- The right part of a range that is clipped on both sides. -/
def LockfRange.rightPart (range : LockfRange) (id : ℕ) (stop : ℤ) : LockfRange :=
  { range with lfId := id, lfStart := stop + 1 }

def LockfRange.leftPart (range : LockfRange) (start : ℤ) : LockfRange :=
  { range with lfEnd := start - 1, lfNoend := false }

/-- One range of the owner reaches beyond the request on both sides. -/
def doubleClip (first last : LockfRange) : Bool :=
  first.lfStart < req.start ∧ first.lfId = last.lfId ∧ last.lfEnd > req.stop

/-- The value of `count` that accounts for new ranges in advance. -/
def initialCount (first last : LockfRange) : ℤ :=
  let unlockOverride := ¬first.lfStart < req.start ∧ req.type = .unlck ∧
    last.lfEnd ≤ req.stop
  if req.flags.posix ∧ ¬unlockOverride ∧
      ¬lfMatch first req.type req.flags ∧
      ¬lfMatch last req.type req.flags then
    if doubleClip req first last ∧ req.type ≠ .unlck then -2 else -1
  else 0

/-- The list the clip loop runs over, with the primary range and with the right
part of a range that is clipped on both sides. -/
def clipList (id : ℕ) (insertPoint : Option ℕ) (first last : LockfRange) : List LockfRange :=
  let list := insertPrimary req list id insertPoint
  if doubleClip req first last then
    lfInsert (tailqModify first.lfId (fun range => range.leftPart req.start) list)
      (first.rightPart (id + 1) req.stop) (some first.lfId)
  else list

def clipStart (id : ℕ) (insertPoint : Option ℕ) (first last : LockfRange) : ClipState :=
  let count := initialCount req first last
  let count :=
    if req.type ≠ .unlck ∧ req.flags.posix then count + 1 else count
  let right := first.rightPart (id + 1) req.stop
  let list := clipList req list id insertPoint first last
  { before := (tailqSplit first.lfId list).1
    after := (tailqSplit first.lfId list).2
    brange := if req.type = .unlck then none else some (req.range id)
    count :=
      if doubleClip req first last then count + posixCount right else count
    wakeupNeeded := false }

end

/-- Ranges of the owner overlap the request; `first` and `last` are the first
and the last of them. -/
def setOverlapping (env : LockEnv) (st : LockState) (req : Request)
    (insertPoint : Option ℕ) (first last : LockfRange) : Option (LockState × Outcome) :=
  let count := initialCount req first last
  let change :=
    if count ≠ 0 then lfCountChange env st.counts req.owner (-count)
    else some (false, st.counts)
  match change with
  | none => none
  | some (true, _) => some (st, .failed .enolck)
  | some (false, counts) =>
    let id := st.lock.nextId
    let start := clipStart req st.lock.lfRange id insertPoint first last
    let lastMatch := if doubleClip req first last then id + 1 else last.lfId
    match clipLoop req first.lfId lastMatch
        (start.before.length + start.after.length) start with
    | none => none
    | some clip =>
      let merged := mergeAdjacent req (clip.before ++ clip.after)
        clip.brange
      let count := clip.count + merged.2
      if count > 0 then none
      else
        let change :=
          if count < 0 then lfCountChange env counts req.owner count
          else some (false, counts)
        match change with
        | none => none
        | some (_, counts) =>
          some (doWakeup req clip.wakeupNeeded
            { lock := { st.lock with
                lfRange := merged.1
                nextId := id + 2 }
              counts := counts }, .ok)

/-- The part of `lf_setlock` behind the check for conflicts. -/
def applyRequest (env : LockEnv) (st : LockState) (req : Request)
    (found : Found) : Option (LockState × Outcome) :=
  let find := fun id : ℕ =>
    st.lock.lfRange.find? fun range => range.lfId = id
  match found.firstMatch.bind find, found.lastMatch.bind find with
  | some first, some last =>
    setOverlapping env st req found.insertPoint first last
  | _, _ => setNew env st req found

def sleepOn (st : LockState) (req : Request) : LockState :=
  { st with
    lock := { st.lock with
      lfBlocked := st.lock.lfBlocked ++
        [{ req.range st.lock.nextId with
            lfPosix := false
            lfNoend := false }]
      nextId := st.lock.nextId + 1 } }

/-- The unlock a flock-style request for an exclusive lock starts with before it
sleeps. -/
def Request.unlockFirst (req : Request) : Request :=
  { req with
    type := .unlck
    flags := ⟨false, false, false⟩ }

/-- One pass of `lf_setlock`. -/
def lfSetlock (env : LockEnv) (st : LockState) (req : Request) : Option (LockState × Outcome) :=
  let found := findRanges req st.lock.lfRange .empty
  match found.conflict with
  | none => applyRequest env st req found
  | some range =>
    if req.flags.wait = false then some (st, .failed .eagain)
    else if req.flags.posix = true ∧
        ∃ brange ∈ st.lock.lfBlocked, brange.lfOwner = range.lfOwner then
      some (st, .failed .edeadlk)
    else if req.flags.posix = false ∧ req.type = .wrlck then
      match applyRequest env st req.unlockFirst
          (findRanges req.unlockFirst st.lock.lfRange .empty) with
      | none => none
      | some (st, _) => some (sleepOn st req, .asleep)
    else some (sleepOn st req, .asleep)

/-- A signal ends the sleep of a request that is still blocked. -/
def interrupt (st : LockState) (id : ℕ) : LockState :=
  { st with
    lock := { st.lock with lfBlocked := tailqRemove id st.lock.lfBlocked } }

end DragonFly.AdvLock
