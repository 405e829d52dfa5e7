import DragonFly.EventSystem

/-!
# Serializing tokens

The tokens of `lwkt_token.c` and the threads that take them.  The tokrefs of a thread are a
stack, and a tokref is named by its thread and its place in the stack.  A step is one access
to the `t_count` or the `t_ref` of a token.  While a thread is switched out, the scheduler
takes the steps of `lwkt_getalltokens` for it.

Of every tokref it is kept beside the code whether the thread asked for the token
exclusively, and whether the token has been acquired through it.
-/

namespace DragonFly.LwktToken

open Function

structure Word where
  excl : Bool
  exclreq : Bool
  count : ℕ
  deriving DecidableEq

def tokExclusive : ℕ := 1

def tokExclreq : ℕ := 2

def tokIncr : ℕ := 4

def Word.value (w : Word) : ℕ :=
  tokIncr * w.count + tokExclreq * w.exclreq.toNat + tokExclusive * w.excl.toNat

structure Token (T : Type) where
  word : Word
  ref : Option (T × ℕ)
  deriving DecidableEq

/-- A tokref; `excl` is the `TOK_EXCLUSIVE` bit of `tr_count`. -/
structure Ref (K : Type) where
  tok : K
  excl : Bool
  asked : Bool
  held : Bool
  deriving DecidableEq

def lwktMaxtokens : ℕ := 32

inductive Goal where
  -- `lwkt_gettoken` and `lwkt_gettoken_shared`
  | get
  -- `lwkt_trytoken`
  | attempt
  -- `lwkt_getalltokens`: the tokrefs still to come and those that are done, for a thread
  -- that sleeps in `lwkt_gettoken` or not
  | all (rest done : List ℕ) (confirm : Bool) (tokenSpin : ℕ)
  deriving DecidableEq

structure Attempt where
  index : ℕ
  -- `TOK_EXCLUSIVE` and `TOK_EXCLREQ` of the mode
  excl : Bool
  block : Bool
  -- the attempts of `_lwkt_trytokref_spin` that are left
  spin : ℕ
  goal : Goal
  deriving DecidableEq

inductive After where
  | pop
  | out (confirm : Bool)
  deriving DecidableEq

structure Release where
  index : ℕ
  rest : List ℕ
  after : After
  deriving DecidableEq

inductive Pc (T : Type) where
  | run
  | out (confirm : Bool)
  -- `KKASSERT(tok->t_ref == ref)` behind `lwkt_switch`
  | confirm
  | tryCount (a : Attempt)
  | tryRef (a : Attempt) (count : Word)
  | tryAct (a : Attempt) (count : Word) (oref : Option (T × ℕ))
  | checkRef (a : Attempt)
  | setRef (a : Attempt)
  | relCount (r : Release)
  | relRef (r : Release) (count : Word)
  | relClear (r : Release) (count : Word)
  | relExcl (r : Release) (count : Word)
  | relRestore (r : Release)
  | relShared (r : Release) (count : Word)
  -- the test and the store of `t_ref` for the first and for the second token
  | swapTest (second : Bool)
  | swapStore (second : Bool)
  deriving DecidableEq

variable {T K : Type}

def startRelease (after : Bool) : List ℕ → Pc T
  | [] => .out after
  | i :: rest => .relCount ⟨i, rest, .out after⟩

def nextAttempt (refs : List (Ref K)) (done : List ℕ) (confirm : Bool) (tokenSpin : ℕ) :
    List ℕ → Pc T
  | [] => if confirm then .confirm else .run
  | i :: rest =>
    .tryCount
      { index := i
        excl := (refs[i]?).any fun r => r.excl
        block := true
        -- it tries hard on the last tokref of the stack only
        spin := if i + 1 = refs.length then tokenSpin else 0
        goal := .all rest done confirm tokenSpin }

def Attempt.success (a : Attempt) (refs : List (Ref K)) : Pc T :=
  match a.goal with
  | .get | .attempt => .run
  | .all rest done confirm tokenSpin => nextAttempt refs (a.index :: done) confirm tokenSpin rest

def below (n : ℕ) : List ℕ :=
  (List.range n).reverse

/-- After the last attempt: the thread gives up its other tokens and switches away, or it
takes back the tokref, or the scheduler gives back what it has. -/
def Attempt.failure (a : Attempt) (refs : List (Ref K)) : List (Ref K) × Pc T :=
  if 0 < a.spin then (refs, .tryCount { a with spin := a.spin - 1 })
  else
    match a.goal with
    | .get => (refs, startRelease a.excl (below (refs.length - 1)))
    | .attempt => (refs.dropLast, .run)
    | .all _ done confirm _ => (refs, startRelease confirm done)

def Ref.hold (r : Ref K) : Ref K :=
  { r with held := true }

/-- The thread has the token already, and the new tokref counts as a shared one. -/
def Ref.recurse (r : Ref K) : Ref K :=
  { r with held := true, excl := false }

def Ref.free (r : Ref K) : Ref K :=
  { r with held := false }

def Release.done (r : Release) (refs : List (Ref K)) : List (Ref K) × Pc T :=
  match r.after with
  | .pop => (refs.dropLast, .run)
  | .out confirm => (refs.modify r.index Ref.free, startRelease confirm r.rest)

structure Outcome (T K : Type) where
  token : Token T
  refs : List (Ref K)
  pc : Pc T

section Steps

variable [DecidableEq T]

/-- `oref` lies in the stack of the thread. -/
def ours (t : T) (refs : List (Ref K)) (oref : Option (T × ℕ)) : Bool :=
  oref.any fun o => o.1 = t ∧ o.2 < refs.length

def tryActStep (t : T) (token : Token T) (refs : List (Ref K)) (a : Attempt) (count : Word)
    (oref : Option (T × ℕ)) : Outcome T K :=
  let fail := fun token =>
    let r := a.failure (T := T) refs
    (⟨token, r.1, r.2⟩ : Outcome T K)
  let add := fun (f : Ref K → Ref K) =>
    let refs := refs.modify a.index f
    (⟨{ token with word := { token.word with count := token.word.count + 1 } }, refs,
      a.success refs⟩ : Outcome T K)
  if a.excl then
    if !count.excl ∧ count.count = 0 then
      if token.word = count then
        ⟨{ token with word := ⟨true, false, 0⟩ }, refs.modify a.index Ref.hold, .checkRef a⟩
      else ⟨token, refs, .tryCount a⟩
    else if count.excl ∧ ours t refs oref then add Ref.recurse
    else if a.block ∧ !count.exclreq then
      fail { token with word := { token.word with exclreq := true } }
    else fail token
  else
    if !count.excl then
      if token.word = count then add Ref.hold else ⟨token, refs, .tryCount a⟩
    else if ours t refs oref then add Ref.hold
    else fail token

/-- The place of the tokref that a point of the code works on. -/
def Pc.place (n : ℕ) : Pc T → ℕ
  | .run | .out _ => n
  | .confirm => n - 1
  | .tryCount a | .tryRef a _ | .tryAct a _ _ | .checkRef a | .setRef a => a.index
  | .relCount r | .relRef r _ | .relClear r _ | .relExcl r _ | .relRestore r => r.index
  | .relShared r _ => r.index
  -- the tokrefs have been exchanged: the first token is in the second place now
  | .swapTest second | .swapStore second => if second then n - 1 else n - 2

def tokenStep (t : T) (token : Token T) (refs : List (Ref K)) : Pc T → Option (Outcome T K)
  | .run | .out _ => none
  | .confirm =>
    if token.ref = some (t, refs.length - 1) then some ⟨token, refs, .run⟩ else none
  | .tryCount a => some ⟨token, refs, .tryRef a token.word⟩
  | .tryRef a count => some ⟨token, refs, .tryAct a count token.ref⟩
  | .tryAct a count oref => some (tryActStep t token refs a count oref)
  | .checkRef a => if token.ref = none then some ⟨token, refs, .setRef a⟩ else none
  | .setRef a => some ⟨{ token with ref := some (t, a.index) }, refs, a.success refs⟩
  | .relCount r => some ⟨token, refs, .relRef r token.word⟩
  | .relRef r count =>
    if token.ref = some (t, r.index) then
      if count.excl then some ⟨token, refs, .relClear r count⟩ else none
    else if count.count = 0 then none
    else some ⟨token, refs, .relShared r count⟩
  | .relClear r count => some ⟨{ token with ref := none }, refs, .relExcl r count⟩
  | .relExcl r count =>
    if token.word = count then
      let d := r.done (T := T) refs
      some ⟨{ token with word := { count with excl := false } }, d.1, d.2⟩
    else some ⟨token, refs, .relRestore r⟩
  | .relRestore r => some ⟨{ token with ref := some (t, r.index) }, refs, .relCount r⟩
  | .relShared r count =>
    if token.word = count then
      let d := r.done (T := T) refs
      some ⟨{ token with word := { count with count := count.count - 1 } }, d.1, d.2⟩
    else some ⟨token, refs, .relCount r⟩
  | .swapTest second =>
    -- the place that the token's tokref had before the exchange
    let old := if second then refs.length - 2 else refs.length - 1
    if token.ref = some (t, old) then some ⟨token, refs, .swapStore second⟩
    else some ⟨token, refs, if second then .run else .swapTest true⟩
  | .swapStore second =>
    let new := if second then refs.length - 1 else refs.length - 2
    some ⟨{ token with ref := some (t, new) }, refs, if second then .run else .swapTest true⟩

end Steps

section Calls

variable [LinearOrder K]

def sortInsert (refs : List (Ref K)) (scan : Ref K) (i : ℕ) : List ℕ → List ℕ
  | [] => [i]
  | j :: rest =>
    if (refs[j]?).any fun r => scan.tok < r.tok then i :: j :: rest
    else j :: sortInsert refs scan i rest

variable (refs : List (Ref K))

/-- The sort of `_lwkt_getalltokens_sorted`, by the addresses of the tokens. -/
def sortArray : List ℕ :=
  refs.zipIdx.foldl (fun array scan => sortInsert refs scan.1 scan.2 array) []

/-- The two tokrefs on top are exchanged, unless they have the same token. -/
def swapRefs : Option (List (Ref K) × Bool) :=
  match refs.reverse with
  | ref₁ :: ref₂ :: rest =>
    if ref₁.tok = ref₂.tok then some (refs, false)
    else some ((ref₂ :: ref₁ :: rest).reverse, true)
  | _ => none

inductive Call (K : Type) where
  -- with the value of `lwkt_token_spin`
  | gettoken (tok : K) (tokenSpin : ℕ)
  | gettokenShared (tok : K) (tokenSpin : ℕ)
  | trytoken (tok : K)
  | reltoken (tok : K)
  | swap
  -- `lwkt_switch`
  | switch
  -- the scheduler calls `lwkt_getalltokens`
  | getalltokens (spinning : Bool) (tokenSpin : ℕ)
  deriving DecidableEq

def push (tok : K) (excl block : Bool) (spin : ℕ) (goal : Goal) : Option (List (Ref K) × Pc T) :=
  if refs.length < lwktMaxtokens then
    some (refs ++ [⟨tok, excl, excl, false⟩], .tryCount ⟨refs.length, excl, block, spin, goal⟩)
  else none

def callStep : Pc T → Call K → Option (List (Ref K) × Pc T)
  | .run, .gettoken tok tokenSpin => push refs tok true true tokenSpin .get
  | .run, .gettokenShared tok tokenSpin => push refs tok false true tokenSpin .get
  | .run, .trytoken tok => push refs tok true false 0 .attempt
  | .run, .reltoken tok =>
    if refs.getLast?.map (·.tok) = some tok then
      some (refs, .relCount ⟨refs.length - 1, [], .pop⟩)
    else none
  | .run, .swap =>
    (swapRefs refs).map fun r => (r.1, if r.2 then .swapTest false else .run)
  | .run, .switch => some (refs, startRelease false (below refs.length))
  | .out confirm, .getalltokens spinning tokenSpin =>
    let order := if spinning then sortArray refs else List.range refs.length
    some (refs, nextAttempt refs [] confirm tokenSpin order)
  | _, _ => none

end Calls

structure State (T K : Type) where
  token : K → Token T
  refs : T → List (Ref K)
  pc : T → Pc T

section System

variable [DecidableEq T] [LinearOrder K]

def State.initial : State T K where
  token _ := ⟨⟨false, false, 0⟩, none⟩
  refs _ := []
  pc _ := .run

/-- A call, or a step of the function that the thread is in. -/
def State.next (s : State T K) (e : T × Option (Call K)) : Option (State T K) :=
  match e.2 with
  | some call =>
    (callStep (s.refs e.1) (s.pc e.1) call).map fun r =>
      { s with
        refs := update s.refs e.1 r.1
        pc := update s.pc e.1 r.2 }
  | none =>
    ((s.refs e.1)[(s.pc e.1).place (s.refs e.1).length]?).bind fun ref =>
      (tokenStep e.1 (s.token ref.tok) (s.refs e.1) (s.pc e.1)).map fun o =>
        { token := update s.token ref.tok o.token
          refs := update s.refs e.1 o.refs
          pc := update s.pc e.1 o.pc }

abbrev Runs (s : State T K) : Prop :=
  Reachable (· = State.initial) (fun _ _ => True) State.next s

end System

end DragonFly.LwktToken
