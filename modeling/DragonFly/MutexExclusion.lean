import DragonFly.MutexInvariant
import DragonFly.MutexQueueActs

/-!
# Exclusion

Every act of a thread keeps the invariant, so in every run in which nobody asks for
an exclusive lock under a name that `mtx_owner` has kept, a thread that holds the
mutex exclusively is alone.  A downgrade keeps that name.
-/

namespace DragonFly.Mutex

open Function

variable {T : Type}

theorem Inv.act [Fintype T] [DecidableEq T] {p' : Phase T} (h : Inv c held ph)
    (hact : Act t c (held t) (ph t) c' h' p') : Inv c' (update held t h') (update ph t p') := by
  generalize hp : ph t = p at hact
  cases hact with
  | move hmove => exact h.move (hp ▸ hmove)
  | take htake hexlink => exact h.take (hp ▸ htake) hexlink
  | drop hdrop => exact h.drop (hp ▸ hdrop)
  | claim hcount => exact h.claim hp hcount
  | store => exact h.store hp
  | recurse hex => exact h.recurse hp hex
  | receive howner => exact h.receive hp howner
  | name => exact h.name hp
  | link => exact h.link hp
  | unlink => exact h.unlink hp
  | init hinit => exact hp ▸ h.init (hp ▸ hinit)
  | share hex => exact h.share hp hex
  | downgrade hex => exact h.downgrade hp hex
  | upgrade hex hcount => exact h.upgrade hp hex hcount
  | release hcount => exact h.release hp hcount
  | decrement hcount => exact h.decrement hp hcount
  | seize hcount hexlink => exact h.seize hp hcount hexlink
  | forget hforget => exact hp ▸ h.forget (hp ▸ hforget)
  | handOver => exact h.handOver hp
  | nameOwner => exact h.nameOwner hp
  | vacate => exact h.vacate hp
  | mark => exact h.mark hp

namespace State

def Disciplined (s : State T) (e : T × Input T) : Prop :=
  s.Holding e ∧ s.Unnamed e

instance [DecidableEq T] (s : State T) (e : T × Input T) : Decidable (s.Disciplined e) :=
  instDecidableAnd

theorem Disciplined.mayCall {s : State T} (h : s.Disciplined (t, input)) :
    ∀ c, input = .call c → MayCall t s.mem (s.held t) c := by
  rintro c rfl
  obtain ⟨hholding, hunnamed⟩ := h
  cases c with
  | unlock | downgrade | upgradeTry => exact hholding
  | lockEx | lockExLink | lockExTry | spinlock | spinlockTry => exact hunnamed
  | _ => trivial

variable [Fintype T]

structure Consistent (s : State T) : Prop where
  inv : Inv s.mem.core s.held fun u => (s.pc u).phase
  knows : ∀ u, (s.pc u).Knows

theorem Initial.consistent {s : State T} (h : s.Initial) : s.Consistent := by
  have hphase : ∀ u, (s.pc u).phase = .free := by
    intro u
    rw [h.pc u]
    rfl
  have hstate : ∀ u, s.mem.core.state u = .idle := h.state
  constructor
  · constructor
    · constructor
      · simp [hphase, h.held, Mem.core, h.lock, LockWord.free]
      · simp [hphase, h.held]
      · simp [h.held]
      · simp [hphase, h.held]
    · simp [hphase, Phase.ownsLink]
    · simp [hphase, Phase.ownsLink]
    · intro u
      rw [hphase u]
      simp [Own, hstate]
    · simp [hphase, Phase.seeks]
    · intro u
      rw [hphase u]
      trivial
  · intro u
    rw [h.pc u]
    trivial

variable [DecidableEq T]

theorem Consistent.next {s s' : State T} (h : s.Consistent) (hallow : s.Disciplined e)
    (hnext : s.next e = some s') : s'.Consistent := by
  obtain ⟨t, input⟩ := e
  simp only [State.next, Option.map_eq_some_iff] at hnext
  obtain ⟨o, hstep, rfl⟩ := hnext
  have hperforms := Queue.pcStep_core (h.knows t) hallow.mayCall hstep
  constructor
  · have hinv := h.inv.act hperforms.1
    have hphase : (fun u => (update s.pc t o.pc u).phase) =
        update (fun u => (s.pc u).phase) t o.pc.phase := by
      funext u
      by_cases hu : u = t
      · rw [hu, update_self, update_self]
      · rw [update_of_ne hu, update_of_ne hu]
    simp only [hphase]
    exact hinv
  · intro u
    by_cases hu : u = t
    · simp only [hu, update_self]
      exact hperforms.2
    · simp only [update_of_ne hu]
      exact h.knows u

/-- Whoever holds the mutex exclusively is the only one that holds it. -/
theorem exclusive_of_reachable
    {s : State T} (h : Reachable Initial Disciplined next s) : s.Exclusive := by
  have hconsistent : s.Consistent :=
    h.invariant Consistent (fun _ hs => hs.consistent)
      fun _ _ _ hs hallow hnext => hs.next hallow hnext
  intro t hex u hne
  have hpos : 0 < tokens (s.pc t).phase (s.held t) (s.mem.core.state t) := by
    unfold tokens
    omega
  obtain ⟨hzero, hshared⟩ := hconsistent.inv.accounts.others_of_exclusive hpos hne
  unfold tokens at hzero
  cases hheld : s.held u with
  | mk ex sh =>
    rw [hheld] at hzero hshared
    simp only [Held.mk.injEq]
    simp only at hzero hshared
    omega

/-! ## Two threads -/

/-- A mutex that two threads have just found. -/
def twoThreads : State (Fin 2) where
  mem :=
    { lock := .free
      owner := none
      head := none
      link := fun _ => ⟨none, none, none, .idle⟩ }
  held _ := ⟨0, 0⟩
  pc _ := .idle .ok

theorem twoThreads_initial : twoThreads.Initial :=
  ⟨rfl, rfl, rfl, fun _ => rfl, fun _ => rfl, fun _ => rfl⟩

def goes (t : Fin 2) (n : ℕ) : List (Fin 2 × Input (Fin 2)) :=
  List.replicate n (t, .run false)

def calls (t : Fin 2) (c : Call (Fin 2)) (n : ℕ) : List (Fin 2 × Input (Fin 2)) :=
  (t, .call c) :: goes t n

/-- Thread 0 takes the mutex, thread 1 queues behind it, and thread 0 gives the
mutex back: thread 1 is handed it and is the only holder. -/
theorem exclusive_after_chain :
    ∃ s : State (Fin 2), Reachable Initial Disciplined next s ∧
      (s.held 1).ex = 1 ∧ s.Exclusive := by
  have hrun : ((runEvents Disciplined next twoThreads
      (calls 0 .lockEx 4 ++ calls 1 .lockEx 12 ++ calls 0 .unlock 10 ++
        goes 1 4)).map fun s => (s.held 1).ex) = some 1 := by
    decide +kernel
  have hstart : Reachable Initial Disciplined next twoThreads := .start twoThreads_initial
  obtain ⟨s, hreach, hheld⟩ := hstart.view hrun
  exact ⟨s, hreach, hheld, exclusive_of_reachable hreach⟩

/-- After a downgrade `mtx_owner` stays.  Between the two stores with which thread
1 takes the mutex, thread 0 is taken for its owner. -/
theorem downgraded_owner_recurses :
    ∃ s : State (Fin 2), Reachable Initial Holding next s ∧ ¬s.Exclusive := by
  have hrun : ((runEvents Holding next twoThreads
      (calls 0 .lockEx 4 ++ calls 0 .downgrade 3 ++ calls 0 .unlock 2 ++
        calls 1 .lockEx 3 ++ calls 0 .lockEx 4 ++ goes 1 1)).map
          fun s => ((s.held 0, s.held 1), s.pc 0, s.pc 1)) =
      some ((⟨1, 0⟩, ⟨1, 0⟩), .idle .ok, .idle .ok) := by
    decide +kernel
  have hstart : Reachable Initial Holding next twoThreads := .start twoThreads_initial
  obtain ⟨s, hreach, heq⟩ := hstart.view hrun
  simp only [Prod.mk.injEq] at heq
  obtain ⟨⟨hzero, hone⟩, -, -⟩ := heq
  refine ⟨s, hreach, fun hexclusive => ?_⟩
  have hnone := hexclusive 0 (by rw [hzero]; decide) 1 (by decide)
  rw [hone] at hnone
  cases hnone

end State

end DragonFly.Mutex
