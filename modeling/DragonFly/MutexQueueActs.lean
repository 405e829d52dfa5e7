import DragonFly.MutexPhases
import DragonFly.MutexQueue

/-!
# Acts on the queue

What a step does to `mtx_lock`, to the ring and to the states of the links.  The role of a
thread says whether it has `MTX_EXLINK`, whether its own link may be linked, and which
stores it still has to do.  Every function is gone through once, for the core and for the
queue together.
-/

namespace DragonFly.Mutex.Queue

open Function Option LockWord

variable {T : Type}

structure View (T : Type) where
  lock : LockWord
  wires : Wires T
  state : T → LinkState

def view (m : Mem T) : View T where
  lock := m.lock
  wires := ⟨m.head, fun w => (m.link w).next, fun w => (m.link w).prev⟩
  state w := (m.link w).state

/-- Who takes a link out: its own thread, `mtx_chain_link` or `mtx_abort_ex_link`. -/
inductive Job where
  | delete
  | chain
  | abort

inductive Role (T : Type) where
  -- without `MTX_EXLINK`; the link is not linked, or may be
  | away
  | asleep
  -- with `MTX_EXLINK` and `MTX_EXWANTED`, on the way into the ring
  | joining
  | binding
  | inserting (p : InsertPc)
  | joined
  -- with `MTX_EXLINK`
  | leaving
  | closing
  | choosing (w : T)
  | emptying
  | unlinking (job : Job) (w : T) (p : UnlinkPc)
  | unlinked (job : Job) (w : T) (alone : Bool)
  | passing (alone : Bool)

namespace Role

def owns : Role T → Bool
  | away | asleep => false
  | _ => true

/-- The link of the thread will be in the ring when it gives `MTX_EXLINK` back. -/
def Links (state : LinkState) : Role T → Prop
  | joining => state ≠ .aborted
  | binding | inserting _ | joined => True
  | _ => False

def MayLink : Role T → Prop
  | asleep | inserting _ | joined | leaving => True
  | unlinking .delete _ _ | unlinked .delete _ _ => True
  | _ => False

end Role

def Job.state : Job → LinkState
  | .delete => .idle
  | .chain => .acquired
  | .abort => .aborted

def Job.after (alone : Bool) : Job → Role T
  | .delete | .abort => .closing
  | .chain => .passing alone

def insertRole : InsertPc ⊕ Unit → Role T
  | .inl p => .inserting p
  | .inr _ => .joined

def deleteRole (t : T) : DeletePc → Role T
  | .read | .claim _ => .asleep
  | .check => .leaving
  | .unlink p => .unlinking .delete t p
  | .setIdle => .unlinked .delete t false
  | .clear => .closing

def lockExRole (t : T) : LockExPc → Role T
  | .init | .read | .claim | .setOwner | .owner _ | .recurse _ | .join _ => .away
  | .testHead | .dropWanted | .testAcquired _ | .assertOwner | .testAborted _ => .away
  | .checkAborted => .joining
  | .dropLink => .closing
  | .setLinkOwner | .setLinked => .binding
  | .testQueue => .inserting .testQueue
  | .setNext => .inserting .setNext
  | .setPrev => .inserting .setPrev
  | .setNextPrev => .inserting .setNextPrev
  | .setPrevNext => .inserting .setPrevNext
  | .setNextSelf => .inserting .setNextSelf
  | .setPrevSelf => .inserting .setPrevSelf
  | .setHead => .inserting .setHead
  | .release => .joined
  | .sleep | .woke _ => .asleep
  | .delete _ p => deleteRole t p

def chainRole : ChainPc T → Role T
  | .head => .closing
  | .assertLinked w => .choosing w
  | .unlink w p => .unlinking .chain w p
  | .setAcquired w alone => .unlinked .chain w alone
  | .setOwner _ alone => .passing alone
  | .read (some _) alone | .swap (some _) alone _ => .passing alone
  | .read none _ | .swap none _ _ => .emptying
  | .clearOwner => .away

def abortRole (w : T) : AbortPc → Role T
  | .read | .claim _ => .away
  | .switch | .clear => .closing
  | .unlink p => .unlinking .abort w p
  | .mark => .unlinked .abort w false

def role (t : T) : Pc T → Role T
  | .lockEx _ p => lockExRole t p
  | .unlock (.chain p) => chainRole p
  | .abort w p => abortRole w p
  | .idle _ | .lockSh _ _ | .downgrade _ | .upgradeTry _ | .unlock _ => .away

/-- A lock that nobody has carries no other flags. -/
def Quiet (l : LockWord) : Prop :=
  l.count = 0 → l.exclusive = false ∧ l.shwanted = false ∧ l.exwanted = false

/-- A change of `mtx_lock` that does not concern the waiters. -/
structure Keeps (l l' : LockWord) : Prop where
  exlink : l'.exlink = l.exlink
  exwanted : l.exwanted = true → l'.exwanted = true
  count : l.exwanted = true → l.count ≠ 0 → l'.count ≠ 0
  quiet : Quiet l → Quiet l'

section Acts

variable [DecidableEq T]

/-- All steps but the one with which an early abort clears `MTX_EXWANTED`. -/
inductive Act (t : T) : View T → Role T → View T → Role T → Prop
  | stay : Act t v r v r
  | word (hkeeps : Keeps l l') :
      Act t ⟨l, q, st⟩ .away ⟨l', q, st⟩ .away
  | join (hexlink : l.exlink = false) (hfree : l ≠ .free) :
      Act t ⟨l, q, st⟩ .away ⟨{ l with exwanted := true, exlink := true }, q, st⟩ .joining
  | leave (hexlink : l.exlink = false) :
      Act t ⟨l, q, st⟩ .asleep ⟨{ l with exlink := true }, q, st⟩ .leaving
  | claim (hexlink : l.exlink = false) :
      Act t ⟨l, q, st⟩ .away ⟨{ l with exlink := true }, q, st⟩ .closing
  | seize (hexlink : l.exlink = false) (hwanted : l.exwanted = true) (hcount : l.count = 1) :
      Act t ⟨l, q, st⟩ .away ⟨{ l with exclusive := true, exlink := true }, q, st⟩ .closing
  | close :
      Act t ⟨l, q, st⟩ .closing ⟨{ l with exlink := false }, q, st⟩ .away
  | rest :
      Act t ⟨l, q, st⟩ .joined ⟨{ l with exlink := false }, q, st⟩ .asleep
  | pass :
      Act t ⟨l, q, st⟩ (.passing alone)
        ⟨{ l with exlink := false, exwanted := l.exwanted && !alone }, q, st⟩ .away
  | empty :
      Act t ⟨l, q, st⟩ .emptying ⟨⟨false, false, false, false, n⟩, q, st⟩ .away
  | init :
      Act t ⟨l, q, st⟩ .away ⟨l, q, update st t .idle⟩ .away
  | bind (hstate : v.state t ≠ .aborted) : Act t v .joining v .binding
  | turn : Act t v .joining v .closing
  | link :
      Act t ⟨l, q, st⟩ .binding ⟨l, q, update st t .linked⟩ (.inserting .testQueue)
  | insert (hstep : insertWires t q p = some (q', .inl p')) :
      Act t ⟨l, q, st⟩ (.inserting p) ⟨l, q', st⟩ (.inserting p')
  | inserted (hstep : insertWires t q p = some (q', .inr ())) :
      Act t ⟨l, q, st⟩ (.inserting p) ⟨l, q', st⟩ .joined
  | wake (hstate : v.state t ≠ .linked) : Act t v .asleep v .away
  | gone (hstate : v.state t ≠ .linked) : Act t v .leaving v .closing
  | delete (hstate : v.state t = .linked) :
      Act t v .leaving v (.unlinking .delete t .test)
  | choose (hhead : v.wires.head = some w) :
      Act t v .closing v (.choosing w)
  | none (hhead : v.wires.head = .none) : Act t v .closing v .emptying
  | pick (hstate : v.state w = .linked) :
      Act t v (.choosing w) v (.unlinking .chain w .test)
  | abort (hstate : v.state w = .linked) :
      Act t v .closing v (.unlinking .abort w .test)
  | abortIdle (hstate : v.state w = .idle) :
      Act t v .closing v (.unlinked .abort w false)
  | unlink (hstep : unlinkWires w q p = some (q', .inl p')) :
      Act t ⟨l, q, st⟩ (.unlinking job w p) ⟨l, q', st⟩ (.unlinking job w p')
  | unlinked (hstep : unlinkWires w q p = some (q', .inr alone))
      (hknown : known = true → alone = true) :
      Act t ⟨l, q, st⟩ (.unlinking job w p) ⟨l, q', st⟩ (.unlinked job w known)
  | mark (hown : job = .delete → w = t) :
      Act t ⟨l, q, st⟩ (.unlinked job w alone) ⟨l, q, update st w job.state⟩ (job.after alone)

/-! ## The view under the stores of the code -/

theorem view_setState (m : Mem T) (w : T) (st : LinkState) :
    view (m.setLink w fun l => { l with state := st }) =
      ⟨m.lock, (view m).wires, update (view m).state w st⟩ := by
  rw [view, setLink_field_self Link.next m w rfl, setLink_field_self Link.prev m w rfl,
    setLink_field Link.state]
  rfl

theorem view_setLinkOwner (m : Mem T) (w : T) (o : Option T) :
    view (m.setLink w fun l => { l with owner := o }) = view m := by
  rw [view, setLink_field_self Link.next m w rfl, setLink_field_self Link.prev m w rfl,
    setLink_field_self Link.state m w rfl]
  rfl

theorem view_setNext (m : Mem T) (w : T) (n : Option T) :
    view (m.setLink w fun l => { l with next := n }) =
      ⟨m.lock, { (view m).wires with next := update (view m).wires.next w n }, (view m).state⟩ := by
  rw [view, setLink_field Link.next, setLink_field_self Link.prev m w rfl,
    setLink_field_self Link.state m w rfl]
  rfl

theorem view_setPrev (m : Mem T) (w : T) (n : Option T) :
    view (m.setLink w fun l => { l with prev := n }) =
      ⟨m.lock, { (view m).wires with prev := update (view m).wires.prev w n }, (view m).state⟩ := by
  rw [view, setLink_field_self Link.next m w rfl, setLink_field Link.prev,
    setLink_field_self Link.state m w rfl]
  rfl

theorem unlinkStep_view {w : T} (h : unlinkStep m w p = some (m', r)) :
    ∃ q', view m' = ⟨m.lock, q', (view m).state⟩ ∧
      unlinkWires w (view m).wires p = some (q', r) := by
  cases p with
  | test =>
      rw [unlinkStep] at h
      split_ifs at h with hself
      · cases h
        exact ⟨_, rfl, if_pos hself⟩
      · cases h
        exact ⟨_, rfl, if_neg hself⟩
  | alone | head =>
      cases h
      exact ⟨_, rfl, rfl⟩
  | nextPrev =>
      simp only [unlinkStep, map_eq_some_iff] at h
      obtain ⟨n, hn, heq⟩ := h
      cases heq
      refine ⟨_, view_setPrev m n (m.link w).prev, ?_⟩
      have hnext : (view m).wires.next w = some n := hn
      simp only [unlinkWires, hnext, map_some]
      rfl
  | prevNext =>
      simp only [unlinkStep, map_eq_some_iff] at h
      obtain ⟨n, hn, heq⟩ := h
      cases heq
      refine ⟨_, view_setNext m n (m.link w).next, ?_⟩
      have hprev : (view m).wires.prev w = some n := hn
      simp only [unlinkWires, hprev, map_some]
      rfl

/-! ## The acts of each function -/

/-- A step acts on the core and on the queue, and the thread knows what it has read. -/
structure Performs (t : T) (m : Mem T) (h : Held) (p : Phase T) (r : Role T) (o : Outcome T) :
    Prop where
  core : Mutex.Act t m.core h p o.mem.core o.held o.pc.phase
  queue : Act t (view m) r (view o.mem) (role t o.pc)
  knows : o.pc.Knows

section Functions

variable {t : T} {m m' : Mem T} {h : Held} {o : Outcome T} {p : Phase T} {r : Role T} {pc : Pc T}
  {kind : ExKind} {error : Bool}

theorem Performs.look
    (hmove : Moves t m.core h p pc.phase) (hrole : role t pc = r) (hknows : pc.Knows) :
    Performs t m h p r ⟨m, h, pc⟩ := by
  refine ⟨.move hmove, ?_, hknows⟩
  rw [hrole]
  exact .stay

theorem Performs.turn
    (hmove : Moves t m.core h p pc.phase) (hact : Act t (view m) r (view m) (role t pc))
    (hknows : pc.Knows) : Performs t m h p r ⟨m, h, pc⟩ :=
  ⟨.move hmove, hact, hknows⟩

theorem Performs.outside (hcore : m'.core = m.core) (hmove : Moves t m.core h p pc.phase)
    (hact : Act t (view m) r (view m') (role t pc)) (hknows : pc.Knows) :
    Performs t m h p r ⟨m', h, pc⟩ := by
  refine ⟨?_, hact, hknows⟩
  simp only [hcore]
  exact .move hmove

theorem unlink_performs {w : T} {r : UnlinkPc ⊕ Bool} (hstep : unlinkStep m w q = some (m', r))
    (hmove : Moves t m.core h p pc.phase) (hknows : pc.Knows)
    (hrole : match r with
      | .inl p' => role t pc = .unlinking job w p'
      | .inr alone => ∃ known, role t pc = .unlinked job w known ∧ (known = true → alone = true)) :
    Performs t m h p (.unlinking job w q) ⟨m', h, pc⟩ := by
  obtain ⟨q', hview, hwires⟩ := unlinkStep_view hstep
  refine .outside (unlinkStep_core hstep) hmove ?_ hknows
  rw [hview]
  cases r with
  | inl p' =>
    rw [hrole]
    exact .unlink hwires
  | inr alone =>
    obtain ⟨known, hrole, hknown⟩ := hrole
    rw [hrole]
    exact .unlinked hwires hknown

theorem insert_performs (r : InsertPc ⊕ Unit) (hcore : m'.core = m.core)
    (hview : view m' = ⟨m.lock, q', (view m).state⟩)
    (hstep : insertWires t (view m).wires i = some (q', r)) (hrole : lockExRole t p' = insertRole r)
    (hphase : p'.phase = (.joined : Phase T)) (hknows : (Pc.lockEx (T := T) kind p').Knows) :
    Performs t m h .joined (.inserting i) ⟨m', h, .lockEx kind p'⟩ := by
  refine .outside hcore ?_ ?_ hknows
  · simp only [Pc.phase, hphase]
    exact .stay _
  · simp only [hview, role, hrole]
    cases r with
    | inl p' => exact .insert hstep
    | inr _ => exact .inserted hstep

theorem contended_performs (kind : ExKind) (hfree : lock ≠ .free) :
    Performs t m h .entering .away ⟨m, h, contended kind lock⟩ := by
  cases kind with
  | block =>
    simp only [contended]
    split_ifs with hexlink
    · exact .look (.stay _) rfl trivial
    · exact .look (.stay _) rfl ⟨Bool.eq_false_iff.mpr hexlink, hfree⟩
  | spin => exact .look (.stay _) rfl trivial
  | attempt | spinAttempt => exact .look .giveUp rfl trivial

theorem deleteStep_performs (hknows : (Pc.lockEx (T := T) kind (.delete error d)).Knows)
    (hstep : deleteStep m t d = some (m', next)) :
    Performs t m h d.phase (deleteRole t d) ⟨m', h, .lockEx kind (afterDelete error next)⟩ := by
  cases d with
  | read =>
    simp only [deleteStep] at hstep
    split_ifs at hstep with hexlink
    · cases hstep
      exact .look (.stay _) rfl trivial
    · cases hstep
      exact .look (.stay _) rfl (Bool.eq_false_iff.mpr hexlink)
  | claim lock =>
    simp only [deleteStep] at hstep
    split_ifs at hstep with hlock
    · cases hstep
      subst hlock
      exact ⟨.take .delete hknows, .leave hknows, trivial⟩
    · cases hstep
      exact .look (.stay _) rfl trivial
  | check =>
    simp only [deleteStep] at hstep
    split_ifs at hstep with hstate
    · cases hstep
      exact .turn (.stillLinked hstate) (.delete hstate) trivial
    · cases hstep
      exact .turn (.gone hstate) (.gone hstate) trivial
  | unlink u =>
    simp only [deleteStep, map_eq_some_iff] at hstep
    obtain ⟨⟨m₁, r⟩, hunlink, heq⟩ := hstep
    cases heq
    cases r with
    | inl p' => exact unlink_performs hunlink (.stay _) trivial rfl
    | inr alone => exact unlink_performs hunlink (.stay _) trivial ⟨false, rfl, nofun⟩
  | setIdle =>
    cases hstep
    refine ⟨?_, ?_, trivial⟩
    · simp only [core_setState]
      exact .unlink
    · simp only [view_setState]
      exact .mark fun _ => rfl
  | clear =>
    cases hstep
    exact ⟨.drop .delete, .close, trivial⟩

theorem lockExStep_performs (hknows : (Pc.lockEx (T := T) kind x).Knows) (hwanted : x ≠ .dropWanted)
    (hstep : lockExStep t m h kind error x = some o) :
    Performs t m h x.phase (lockExRole t x) o := by
  cases x with
  | init =>
    cases hstep
    refine ⟨?_, ?_, trivial⟩
    · simp only [core_setState]
      exact .init (Or.inr rfl)
    · simp only [view_setState]
      exact .init
  | read =>
    simp only [lockExStep] at hstep
    split_ifs at hstep with hfree hexclusive
    · cases hstep
      exact .look (.stay _) rfl trivial
    · cases hstep
      exact .look (.stay _) rfl hexclusive
    · cases hstep
      exact contended_performs kind hfree
  | claim =>
    apply of_ite_some hstep
    · intro hfree
      refine ⟨?_, .word ?_, trivial⟩
      · have hact : Mutex.Act t m.core h .entering { m.core with ex := true, count := 1 }
            { h with ex := h.ex + 1 } .storing :=
          .claim (by simp [Mem.core, hfree, free])
        have hcore : Mem.core { m with lock := .owned } =
            { m.core with ex := true, count := 1 } := by
          simp [Mem.core, hfree, free, owned]
        simp only [hcore]
        exact hact
      · rw [hfree]
        constructor <;> simp [free, owned, Quiet]
    · exact fun _ => .look (.stay _) rfl trivial
  | setOwner =>
    cases hstep
    exact ⟨.store, .stay, trivial⟩
  | owner lock =>
    simp only [lockExStep] at hstep
    split_ifs at hstep with howner hfull
    · cases hstep
      exact .look (.confirm howner) rfl hknows
    · cases hstep
      apply contended_performs
      rintro rfl
      cases hknows
  | recurse lock =>
    apply of_ite_some hstep
    · rintro rfl
      exact ⟨.recurse hknows, .word ⟨rfl, id, by simp, by simp [Quiet]⟩, trivial⟩
    · exact fun _ => .look .retry rfl trivial
  | join lock =>
    apply of_ite_some hstep
    · rintro rfl
      exact ⟨.take .join hknows.1, .join hknows.1 hknows.2, trivial⟩
    · exact fun _ => .look (.stay _) rfl trivial
  | checkAborted =>
    apply of_ite_some hstep
    · exact fun _ => .turn (.stay _) .turn trivial
    · exact fun hstate => .turn (.stay _) (.bind hstate) trivial
  | dropLink =>
    cases hstep
    exact ⟨.drop .abortJoin, .close, trivial⟩
  | testHead =>
    apply of_ite_some hstep
    · exact fun _ => .look (.stay _) rfl trivial
    · exact fun _ => .look .giveUp rfl trivial
  | dropWanted => exact absurd rfl hwanted
  | setLinkOwner =>
    cases hstep
    refine ⟨?_, ?_, trivial⟩
    · simp only [core_setLinkOwner]
      exact .name
    · simp only [view_setLinkOwner]
      exact .stay
  | setLinked =>
    cases hstep
    refine ⟨?_, ?_, trivial⟩
    · simp only [core_setState]
      exact .link
    · simp only [view_setState]
      exact .link
  | testQueue =>
    apply of_ite_some hstep
    · exact fun hhead => insert_performs (.inl .setNextSelf) rfl rfl (if_pos hhead) rfl rfl trivial
    · exact fun hhead => insert_performs (.inl .setNext) rfl rfl (if_neg hhead) rfl rfl trivial
  | setNext =>
    cases hstep
    exact insert_performs (.inl .setPrev) (core_setLink m t rfl rfl) (view_setNext m t m.head)
      rfl rfl rfl trivial
  | setPrev =>
    simp only [lockExStep, map_eq_some_iff] at hstep
    obtain ⟨n, hn, rfl⟩ := hstep
    have hnext : (view m).wires.next t = some n := hn
    refine insert_performs (.inl .setNextPrev) (core_setLink m t rfl rfl)
      (view_setPrev m t (m.link n).prev) ?_ rfl rfl trivial
    simp only [insertWires, hnext, map_some]
    rfl
  | setNextPrev =>
    simp only [lockExStep, map_eq_some_iff] at hstep
    obtain ⟨n, hn, rfl⟩ := hstep
    have hnext : (view m).wires.next t = some n := hn
    refine insert_performs (.inl .setPrevNext) (core_setLink m n rfl rfl)
      (view_setPrev m n (some t)) ?_ rfl rfl trivial
    simp only [insertWires, hnext, map_some]
  | setPrevNext =>
    simp only [lockExStep, map_eq_some_iff] at hstep
    obtain ⟨n, hn, rfl⟩ := hstep
    have hprev : (view m).wires.prev t = some n := hn
    refine insert_performs (.inr ()) (core_setLink m n rfl rfl)
      (view_setNext m n (some t)) ?_ rfl rfl trivial
    simp only [insertWires, hprev, map_some]
  | setNextSelf =>
    cases hstep
    exact insert_performs (.inl .setPrevSelf) (core_setLink m t rfl rfl)
      (view_setNext m t (some t)) rfl rfl rfl trivial
  | setPrevSelf =>
    cases hstep
    exact insert_performs (.inl .setHead) (core_setLink m t rfl rfl)
      (view_setPrev m t (some t)) rfl rfl rfl trivial
  | setHead =>
    cases hstep
    exact insert_performs (i := .setHead) (.inr ()) rfl rfl rfl rfl rfl trivial
  | release =>
    cases hstep
    exact ⟨.drop .join, .rest, trivial⟩
  | sleep =>
    cases hstep
    exact .look (.stay _) rfl trivial
  | woke e =>
    apply of_ite_some hstep
    · exact fun _ => .look (.stay _) rfl trivial
    · exact fun hstate => .turn (.notLinked hstate) (.wake hstate) trivial
  | delete e d =>
    simp only [lockExStep, map_eq_some_iff] at hstep
    obtain ⟨⟨m₁, next⟩, hdelete, rfl⟩ := hstep
    exact deleteStep_performs hknows hdelete
  | testAcquired e =>
    apply of_ite_some hstep
    · exact fun hstate => .look (.granted hstate) rfl trivial
    · exact fun hstate => .look (.refuse hstate) rfl trivial
  | assertOwner =>
    apply of_guard_some hstep
    exact fun howner => ⟨.receive howner, .stay, trivial⟩
  | testAborted e =>
    simp only [lockExStep] at hstep
    split_ifs at hstep
    · cases hstep
      exact .look .fail rfl trivial
    · cases hstep
      exact .look .fail rfl trivial
    · cases hstep
      exact .look .again rfl trivial

theorem lockShStep_performs (hknows : (Pc.lockSh (T := T) attempt x).Knows)
    (hstep : lockShStep m h attempt error x = some o) : Performs t m h .free .away o := by
  cases x with
  | read =>
    simp only [lockShStep] at hstep
    split_ifs at hstep with hexclusive hattempt hfull
    · cases hstep
      exact .look (.stay _) rfl trivial
    · cases hstep
      exact .look (.stay _) rfl hexclusive
    · cases hstep
      exact .look (.stay _) rfl (Bool.eq_false_iff.mpr hexclusive)
  | claim lock =>
    apply of_ite_some hstep
    · rintro rfl
      exact ⟨.share hknows, .word ⟨rfl, id, by simp, by simp [Quiet]⟩, trivial⟩
    · exact fun _ => .look (.stay _) rfl trivial
  | want lock =>
    have hexclusive : lock.exclusive = true := hknows
    apply of_ite_some hstep
    · rintro rfl
      refine .outside rfl (.stay _) (.word ⟨rfl, id, fun _ => id, ?_⟩) trivial
      intro hquiet hzero
      have hfalse := (hquiet hzero).1
      rw [hexclusive] at hfalse
      cases hfalse
    · exact fun _ => .look (.stay _) rfl trivial
  | sleep =>
    apply of_ite_some hstep
    · exact fun _ => .look (.stay _) rfl trivial
    · exact fun _ => .look (.stay _) rfl trivial

theorem downgradeStep_performs (hknows : (Pc.downgrade (T := T) x).Knows)
    (hstep : downgradeStep t m h x = some o) : Performs t m h .holding .away o := by
  cases x with
  | read =>
    simp only [downgradeStep] at hstep
    split_ifs at hstep with hexclusive
    · cases hstep
      exact .look (.stay _) rfl hexclusive
    · cases hstep
      exact .look .finish rfl trivial
  | assertOwner lock =>
    apply of_guard_some hstep
    exact fun _ => .look (.stay _) rfl hknows
  | swap lock =>
    apply of_ite_some hstep
    · rintro rfl
      refine ⟨.downgrade hknows, .word ⟨rfl, id, fun _ => id, ?_⟩, trivial⟩
      intro hquiet hzero
      exact ⟨rfl, rfl, (hquiet hzero).2.2⟩
    · exact fun _ => .look (.stay _) rfl trivial

theorem upgradeTryStep_performs (hknows : (Pc.upgradeTry (T := T) x).Knows)
    (hstep : upgradeTryStep t m h x = some o) :
    Performs t m h (Pc.upgradeTry (T := T) x).phase .away o := by
  cases x with
  | read =>
    simp only [upgradeTryStep] at hstep
    split_ifs at hstep with hone hexclusive
    · cases hstep
      refine .look (.stay _) rfl ⟨?_, ?_⟩
      · exact congrArg exclusive hone
      · exact congrArg count hone
    · cases hstep
      exact .look (.stay _) rfl trivial
    · cases hstep
      exact .look .finish rfl trivial
  | swap lock =>
    have hcount : lock.count = 1 := hknows.2
    apply of_ite_some hstep
    · rintro rfl
      refine ⟨.upgrade hknows.1 hknows.2, .word ⟨rfl, id, fun _ => id, ?_⟩, trivial⟩
      intro _ hzero
      simp only at hzero
      omega
    · exact fun _ => .look (.stay _) rfl trivial
  | setOwner =>
    cases hstep
    exact ⟨.store, .stay, trivial⟩
  | assertOwner =>
    apply of_guard_some hstep
    exact fun _ => .look .finish rfl trivial

theorem chainStep_performs (hstep : chainStep m h x = some o) :
    Performs t m h x.phase (chainRole x) o := by
  cases x with
  | head =>
    simp only [chainStep] at hstep
    cases hhead : m.head with
    | none =>
      rw [hhead] at hstep
      cases hstep
      exact .turn .empty (.none hhead) trivial
    | some w =>
      rw [hhead] at hstep
      cases hstep
      exact .turn (.stay _) (.choose hhead) trivial
  | assertLinked w =>
    apply of_guard_some hstep
    exact fun hstate => .turn (.pick hstate) (.pick hstate) trivial
  | unlink w u =>
    simp only [chainStep, map_eq_some_iff] at hstep
    obtain ⟨⟨m₁, r⟩, hunlink, rfl⟩ := hstep
    cases r with
    | inl p' => exact unlink_performs hunlink (.stay _) trivial rfl
    | inr alone => exact unlink_performs hunlink (.stay _) trivial ⟨alone, rfl, id⟩
  | setAcquired w alone =>
    cases hstep
    refine ⟨?_, ?_, trivial⟩
    · simp only [core_setState]
      exact .handOver
    · simp only [view_setState]
      exact .mark nofun
  | setOwner w alone =>
    cases hstep
    exact ⟨.nameOwner, .stay, trivial⟩
  | read link alone =>
    cases hstep
    cases link with
    | none | some w => exact .look (.stay _) rfl trivial
  | swap link alone lock =>
    cases link with
    | none =>
      simp only [chainStep] at hstep
      split_ifs at hstep with hlock hshared
      · cases hstep
        subst hlock
        exact ⟨.vacate, .empty, trivial⟩
      · cases hstep
        subst hlock
        exact ⟨.vacate, .empty, trivial⟩
      · cases hstep
        exact .look (.stay _) rfl trivial
    | some w =>
      apply of_ite_some hstep
      · rintro rfl
        exact ⟨.drop .chain, .pass, trivial⟩
      · exact fun _ => .look (.stay _) rfl trivial
  | clearOwner =>
    cases hstep
    exact ⟨.forget (Or.inl rfl), .stay, trivial⟩

theorem keeps_release (hwanted : l.exwanted = false) :
    Keeps l { LockWord.free with exlink := l.exlink } := by
  constructor
  · rfl
  · intro hset
    rw [hwanted] at hset
    cases hset
  · intro hset
    rw [hwanted] at hset
    cases hset
  · intro _ _
    exact ⟨rfl, rfl, rfl⟩

theorem unlockStep_performs (hknows : (Pc.unlock x).Knows) (hstep : unlockStep m h x = some o) :
    Performs t m h (Pc.unlock x).phase (role t (.unlock x)) o := by
  cases x with
  | read =>
    simp only [unlockStep] at hstep
    split_ifs at hstep with hone hwanted hexlink hexclusive hzero
    · cases hstep
      exact .look (.stay _) rfl trivial
    · cases hstep
      exact .look (.stay _) rfl ⟨hone, Bool.eq_false_iff.mpr hexlink, hwanted⟩
    · cases hstep
      exact .look (.stay _) rfl ⟨hone, Bool.eq_false_iff.mpr hwanted⟩
    · cases hstep
      exact .look (.stay _) rfl ⟨hone, Bool.eq_false_iff.mpr hwanted⟩
    · cases hstep
      refine .look (.stay _) rfl ?_
      simp only [Pc.Knows]
      omega
  | dropShared lock | dropExclusive lock =>
    apply of_ite_some hstep
    · rintro rfl
      exact ⟨.release hknows.1, .word (keeps_release hknows.2), trivial⟩
    · exact fun _ => .look (.stay _) rfl trivial
  | clearOwner lock =>
    cases hstep
    exact ⟨.forget (Or.inr rfl), .stay, hknows⟩
  | seize lock =>
    obtain ⟨hcount, hexlink, hwanted⟩ := hknows
    apply of_ite_some hstep
    · rintro rfl
      exact ⟨.seize hcount hexlink, .seize hexlink hwanted hcount, trivial⟩
    · exact fun _ => .look (.stay _) rfl trivial
  | decrement lock =>
    have hcount : 2 ≤ lock.count := hknows
    apply of_ite_some hstep
    · rintro rfl
      have hpos : m.lock.count - 1 ≠ 0 := by omega
      exact ⟨.decrement hknows,
        .word ⟨rfl, id, fun _ _ => hpos, fun _ hzero => absurd hzero hpos⟩, trivial⟩
    · exact fun _ => .look (.stay _) rfl trivial
  | chain c => exact chainStep_performs hstep

theorem abortStep_performs (hknows : (Pc.abort w x).Knows) (hstep : abortStep m h w x = some o) :
    Performs t m h (Pc.abort w x).phase (abortRole w x) o := by
  cases x with
  | read =>
    apply of_ite_some hstep
    · exact fun _ => .look (.stay _) rfl trivial
    · exact fun hexlink => .look (.stay _) rfl (Bool.eq_false_iff.mpr hexlink)
  | claim lock =>
    apply of_ite_some hstep
    · rintro rfl
      exact ⟨.take .abort hknows, .claim hknows, trivial⟩
    · exact fun _ => .look (.stay _) rfl trivial
  | switch =>
    simp only [abortStep] at hstep
    split at hstep
    · next hstate =>
        cases hstep
        exact .turn (.abortIdle hstate) (.abortIdle hstate) trivial
    · next hstate =>
        cases hstep
        exact .turn (.abortLinked hstate) (.abort hstate) trivial
    · cases hstep
      exact .look .abortNone rfl trivial
    · cases hstep
      exact .look .abortNone rfl trivial
  | unlink u =>
    simp only [abortStep, map_eq_some_iff] at hstep
    obtain ⟨⟨m₁, r⟩, hunlink, rfl⟩ := hstep
    cases r with
    | inl p' => exact unlink_performs hunlink (.stay _) trivial rfl
    | inr alone => exact unlink_performs hunlink .delinked trivial ⟨false, rfl, nofun⟩
  | mark =>
    cases hstep
    refine ⟨?_, ?_, trivial⟩
    · simp only [core_setState]
      exact .mark
    · simp only [view_setState]
      exact .mark nofun
  | clear =>
    cases hstep
    exact ⟨.drop .abort, .close, trivial⟩

theorem pcStep_performs (hknows : pc.Knows) (hwanted : ∀ kind, pc ≠ .lockEx kind .dropWanted)
    (hstep : pcStep t m h pc (.run error) = some o) : Performs t m h pc.phase (role t pc) o := by
  cases pc with
  | idle ret => cases hstep
  | lockEx kind x => exact lockExStep_performs hknows (fun heq => hwanted kind (heq ▸ rfl)) hstep
  | lockSh attempt x => exact lockShStep_performs hknows hstep
  | downgrade x => exact downgradeStep_performs hknows hstep
  | upgradeTry x => exact upgradeTryStep_performs hknows hstep
  | unlock x => exact unlockStep_performs hknows hstep
  | abort w x => exact abortStep_performs hknows hstep

theorem callStep_core (hcall : MayCall t m h c) :
    Mutex.Act t m.core h .free (callStep t m h c).mem.core (callStep t m h c).held
      (callStep t m h c).pc.phase := by
  cases c with
  | linkInit =>
    simp only [callStep, core_setState]
    exact .init (Or.inl rfl)
  | lockEx | lockExLink | lockExTry | spinlock | spinlockTry => exact .move (.enter hcall)
  | lockSh | lockShTry | abortExLink w => exact .move (.stay _)
  | downgrade | upgradeTry | unlock => exact .move (.hold hcall)

theorem callStep_queue (c : Call T) :
    Act t (view m) .away (view (callStep t m h c).mem) (role t (callStep t m h c).pc) := by
  cases c with
  | linkInit =>
    simp only [callStep, view_setState]
    exact .init
  | _ => exact .stay

theorem pcStep_core (hknows : pc.Knows) (hcall : ∀ c, input = .call c → MayCall t m h c)
    (hstep : pcStep t m h pc input = some o) :
    Mutex.Act t m.core h pc.phase o.mem.core o.held o.pc.phase ∧ o.pc.Knows := by
  cases input with
  | call c =>
    cases pc with
    | idle ret =>
      cases hstep
      refine ⟨callStep_core (hcall c rfl), ?_⟩
      cases c <;> trivial
    | _ => cases hstep
  | run error =>
    by_cases hdrop : ∃ kind, pc = .lockEx kind .dropWanted
    · obtain ⟨kind, rfl⟩ := hdrop
      cases hstep
      exact ⟨.move .giveUp, trivial⟩
    · have hperforms := pcStep_performs hknows (fun kind hpc => hdrop ⟨kind, hpc⟩) hstep
      exact ⟨hperforms.core, hperforms.knows⟩

theorem pcStep_queue (hknows : pc.Knows) (hwanted : ∀ kind, pc ≠ .lockEx kind .dropWanted)
    (hstep : pcStep t m h pc input = some o) :
    Act t (view m) (role t pc) (view o.mem) (role t o.pc) ∧ o.pc.Knows := by
  cases input with
  | call c =>
    cases pc with
    | idle ret =>
      cases hstep
      refine ⟨callStep_queue c, ?_⟩
      cases c <;> trivial
    | _ => cases hstep
  | run error =>
    have hperforms := pcStep_performs hknows hwanted hstep
    exact ⟨hperforms.queue, hperforms.knows⟩

end Functions

end Acts

end DragonFly.Mutex.Queue
