import DragonFly.PhaseTotals
import DragonFly.SpinlockWord

/-!
# Exclusion

The low count is the number of holders and of exclusive attempts that have not
moved to the high bits, and the high count is the number of those that have.  While
the shared flag is set nobody holds the lock exclusively or has cleared the flag on
the way there, and somebody is left who will clear it.
-/

namespace DragonFly.Spinlock

open Function

/-- What a thread means to the others. -/
inductive Role
  | outside
  -- counted in the low bits by `atomic_add_int(&spin->counta, 1)`
  | attempt
  -- counted in the high bits, the shared flag not yet cleared
  | clearing
  | waiting
  | exclusive
  | shared
  -- `spin_unlock_shared` after its decrement
  | closing
  deriving DecidableEq

namespace Role

def low : Role → ℕ
  | .attempt | .exclusive | .shared => 1
  | _ => 0

def waits : Role → ℕ
  | .clearing | .waiting => 1
  | _ => 0

/-- Who has seen the shared flag cleared. -/
def PastFlag (r : Role) : Prop :=
  r = .waiting ∨ r = .exclusive

/-- Who will still see to it that the shared flag is cleared. -/
def KeepsFlag (r : Role) : Prop :=
  r = .attempt ∨ r = .clearing ∨ r = .shared ∨ r = .closing

instance (r : Role) : Decidable r.PastFlag :=
  instDecidableOr

instance (r : Role) : Decidable r.KeepsFlag :=
  instDecidableOr

theorem low_le_one (r : Role) : r.low ≤ 1 := by
  cases r <;> decide

theorem waits_le_one (r : Role) : r.waits ≤ 1 := by
  cases r <;> decide

theorem pos_of_pastFlag {r : Role} (h : r.PastFlag) : 0 < r.low + r.waits := by
  revert h
  cases r <;> decide

theorem keepsFlag_of_pos {r : Role} (h : 0 < r.low + r.waits) (hpast : ¬ r.PastFlag) :
    r.KeepsFlag := by
  revert h hpast
  cases r <;> decide

end Role

namespace Pc

def role : Pc → Role
  | .idle | .trylock | .lock | .lockShared | .sharedRead | .sharedFirst | .sharedNext _ =>
    .outside
  | .lockTest | .contestAdd => .attempt
  | .contestClear => .clearing
  | .contestRead | .contestSet _ => .waiting
  | .exclusive | .unlock => .exclusive
  | .shared | .unlockShared => .shared
  | .unlockSharedTest | .unlockSharedClear => .closing

/-- What a thread remembers of the word it has read. -/
def Knows : Pc → Prop
  | .contestSet ovalue => ovalue &&& (spinlockExclwait - 1) = 0
  | .sharedNext ovalue => ovalue &&& spinlockShared ≠ 0
  | _ => True

end Pc

/-- Every change of the word, and every change of a role. -/
inductive Act : BitVec 32 → Role → BitVec 32 → Role → Prop
  | silent : Act w r w r
  | attempt : Act w .outside (w + 1) .attempt
  | quick : Act 1 .attempt 1 .exclusive
  | contest : Act w .attempt (w + (spinlockExclwait - 1)) .clearing
  | clear : Act w .clearing (w &&& ~~~spinlockShared) .waiting
  | take (hlow : w &&& (spinlockExclwait - 1) = 0) :
      Act w .waiting ((w - spinlockExclwait) ||| 1) .exclusive
  | tryTake : Act 0 .outside 1 .exclusive
  | first : Act 0 .outside (spinlockShared ||| 1) .shared
  | join (hflag : w &&& spinlockShared ≠ 0) :
      Act w .outside (w + 1) .shared
  | release : Act w .exclusive (w + (-1)) .outside
  | releaseShared : Act w .shared (w + (-1)) .closing
  | leave (hword : w ≠ spinlockShared) : Act w .closing w .outside
  | reset : Act spinlockShared .closing 0 .outside

/-- A move of a thread is an act of its role, and keeps what it remembers true. -/
def Acts (w : BitVec 32) (p : Pc) (result : BitVec 32 × Pc) : Prop :=
  Act w p.role result.1 result.2.role ∧ result.2.Knows

variable {w : BitVec 32} {p : Pc}

theorem acts_cmpset {success failure : Pc} (hsuccess : Act old p.role new success.role)
    (hknows : success.Knows) (hrole : failure.role = p.role) (hknows' : failure.Knows) :
    Acts w p (cmpset w old new success failure) := by
  unfold cmpset
  split_ifs with hword
  · rw [hword]
    exact ⟨hsuccess, hknows⟩
  · refine ⟨?_, hknows'⟩
    rw [hrole]
    exact .silent

theorem acts_of_step {result : BitVec 32 × Pc} (hknows : p.Knows)
    (h : step w p = some result) : Acts w p result := by
  cases p
  case idle | exclusive | shared => cases h
  all_goals rw [← Option.some.inj h]
  case trylock =>
    exact acts_cmpset .tryTake trivial rfl trivial
  case lock =>
    exact ⟨.attempt, trivial⟩
  case lockTest =>
    by_cases hword : w = 1
    · rw [hword]
      exact ⟨.quick, trivial⟩
    · rw [if_pos hword]
      exact ⟨.silent, trivial⟩
  case contestAdd =>
    exact ⟨.contest, trivial⟩
  case contestClear =>
    exact ⟨.clear, trivial⟩
  case contestRead =>
    split_ifs with hlow
    · exact ⟨.silent, hlow⟩
    · exact ⟨.silent, trivial⟩
  case contestSet ovalue =>
    exact acts_cmpset (.take hknows) trivial rfl trivial
  case lockShared | sharedFirst =>
    exact acts_cmpset .first trivial rfl trivial
  case sharedRead =>
    split_ifs with hzero hflag
    · exact ⟨.silent, trivial⟩
    · exact ⟨.silent, hflag⟩
    · exact ⟨.silent, trivial⟩
  case sharedNext ovalue =>
    exact acts_cmpset (.join hknows) trivial rfl trivial
  case unlock =>
    exact ⟨.release, trivial⟩
  case unlockShared =>
    exact ⟨.releaseShared, trivial⟩
  case unlockSharedTest =>
    split_ifs with hword
    · exact ⟨.silent, trivial⟩
    · exact ⟨.leave hword, trivial⟩
  case unlockSharedClear =>
    exact acts_cmpset .reset trivial rfl trivial

theorem role_of_call (h : p.call c = some p') : p'.role = p.role ∧ p'.Knows := by
  cases p <;> cases c <;> cases h <;> exact ⟨rfl, trivial⟩

variable {T : Type}

theorem calm_update [DecidableEq T] {t : T} {r : Role} (hothers : ∀ u, t ≠ u → ¬ (role u).PastFlag)
    (hr : ¬ r.PastFlag) : ∀ u, ¬ (update role t r u).PastFlag := by
  intro u
  by_cases hu : u = t
  · rw [hu, update_self]
    exact hr
  · rw [update_of_ne hu]
    exact hothers u (Ne.symm hu)

theorem role_update [DecidableEq T] (pc : T → Pc) (t : T) (p : Pc) :
    (fun u => (update pc t p u).role) =
      update (fun u => (pc u).role) t p.role := by
  funext u
  exact Function.apply_update (fun _ => Pc.role) pc t p u

theorem knows_update [DecidableEq T] {t : T} (h : ∀ u, (pc u).Knows) (hp : p.Knows) :
    ∀ u, (update pc t p u).Knows := by
  intro u
  by_cases hu : u = t
  · rw [hu, update_self]
    exact hp
  · rw [update_of_ne hu]
    exact h u

variable [Fintype T]

structure Inv (w : BitVec 32) (flag : Bool) (role : T → Role) : Prop where
  word : Packs w flag (total Role.waits role) (total Role.low role)
  calm : flag = true → ∀ t, ¬ (role t).PastFlag
  kept : flag = true → ∃ t, (role t).KeepsFlag
  alone : ∀ t u, role t = .exclusive → t ≠ u → role u ≠ .exclusive ∧ role u ≠ .shared

namespace Inv

variable {w : BitVec 32} {flag : Bool} {role : T → Role}

theorem others_of_low_one (h : total Role.low role = 1) (ht : (role t).low = 1) (hne : t ≠ u) :
    role u ≠ .exclusive ∧ role u ≠ .shared := by
  have hpair := add_weight_le_total Role.low role hne
  have hzero : (role u).low = 0 := by omega
  constructor
  · intro hu
    rw [hu] at hzero
    cases hzero
  · intro hu
    rw [hu] at hzero
    cases hzero

theorem no_holder_of_low_zero
    (h : total Role.low role = 0) (t : T) : role t ≠ .exclusive ∧ role t ≠ .shared := by
  have ht := weight_le_total Role.low role t
  constructor
  · intro hr
    rw [hr, h] at ht
    cases ht
  · intro hr
    rw [hr, h] at ht
    cases ht

/-- A set flag that is not the whole word has a count next to it, and its owner will
clear the flag. -/
theorem exists_keeper (h : Inv w flag role) (hflag : flag = true) (hword : w ≠ spinlockShared) :
    ∃ t, 0 < (role t).low + (role t).waits ∧ (role t).KeepsFlag := by
  have hcount : 0 < total Role.low role ∨ 0 < total Role.waits role := by
    by_contra hnone
    apply hword
    apply (h.word.eq_iff .sharedFlag).mpr
    refine ⟨hflag, ?_, ?_⟩
    · omega
    · omega
  have hpos : ∃ t, 0 < (role t).low + (role t).waits := by
    cases hcount with
    | inl hlow =>
      obtain ⟨t, ht⟩ := exists_weight_pos hlow
      exact ⟨t, by omega⟩
    | inr hwaits =>
      obtain ⟨t, ht⟩ := exists_weight_pos hwaits
      exact ⟨t, by omega⟩
  obtain ⟨t, ht⟩ := hpos
  exact ⟨t, ht, Role.keepsFlag_of_pos ht (h.calm hflag t)⟩

theorem flag_false_of_pastFlag (h : Inv w flag role) (ht : (role t).PastFlag) : flag = false := by
  cases hflag : flag with
  | false => rfl
  | true => exact absurd ht (h.calm hflag t)

variable [DecidableEq T] {t : T} {r : Role} {w' : BitVec 32}

variable (h : Inv w flag role)
include h

theorem alone_update
    (hexclusive : r = .exclusive → ∀ u, t ≠ u → role u ≠ .exclusive ∧ role u ≠ .shared)
    (hshared : r = .shared → ∀ u, t ≠ u → role u ≠ .exclusive) :
    ∀ v u, update role t r v = .exclusive → v ≠ u →
      update role t r u ≠ .exclusive ∧ update role t r u ≠ .shared := by
  intro v u hv hne
  by_cases hvt : v = t
  · subst hvt
    rw [update_self] at hv
    rw [update_of_ne hne.symm]
    exact hexclusive hv u hne
  · rw [update_of_ne hvt] at hv
    by_cases hut : u = t
    · subst hut
      rw [update_self]
      constructor
      · intro hr
        exact (hexclusive hr v hne.symm).1 hv
      · intro hr
        exact hshared hr v hne.symm hv
    · rw [update_of_ne hut]
      exact h.alone v u hv hne

theorem update_keeper (hword : Packs w' flag (total Role.waits (update role t r))
      (total Role.low (update role t r))) (hkeeps : r.KeepsFlag) (hshared : r ≠ .shared) :
    Inv w' flag (update role t r) := by
  have hpast : ¬ r.PastFlag := by
    revert hkeeps
    cases r <;> decide
  constructor
  · exact hword
  · intro hflag
    exact calm_update (fun u _ => h.calm hflag u) hpast
  · intro _
    refine ⟨t, ?_⟩
    rw [update_self]
    exact hkeeps
  · apply h.alone_update
    · intro hr
      exact absurd (.inr hr) hpast
    · intro hr
      exact absurd hr hshared

theorem update_cleared (hword : Packs w' false (total Role.waits (update role t r))
      (total Role.low (update role t r)))
    (hexclusive : r = .exclusive → ∀ u, t ≠ u → role u ≠ .exclusive ∧ role u ≠ .shared)
    (hshared : r ≠ .shared) : Inv w' false (update role t r) := by
  constructor
  · exact hword
  · intro hset
    cases hset
  · intro hset
    cases hset
  · exact h.alone_update hexclusive fun hr => absurd hr hshared

theorem update_shared (hword : Packs w' true (total Role.waits (update role t .shared))
      (total Role.low (update role t .shared))) (hothers : ∀ u, t ≠ u → ¬ (role u).PastFlag) :
    Inv w' true (update role t .shared) := by
  constructor
  · exact hword
  · intro _
    exact calm_update hothers (by decide)
  · intro _
    refine ⟨t, ?_⟩
    rw [update_self]
    decide
  · apply h.alone_update
    · intro hr
      cases hr
    · intro _ u hne hu
      exact hothers u hne (.inr hu)

theorem act (hcard : Fintype.card T < 2047) (hact : Act w (role t) w' r) :
    ∃ flag', Inv w' flag' (update role t r) := by
  have hlow := total_update Role.low role t r
  have hwaits := total_update Role.waits role t r
  have hlowBound := total_le_card Role.low_le_one (update role t r)
  have hwaitsBound := total_le_card Role.waits_le_one (update role t r)
  have hword := h.word
  generalize hp : role t = p at hact hlow hwaits
  cases hact
  case silent =>
    rw [← hp, update_eq_self]
    exact ⟨flag, h⟩
  all_goals
    simp only [Role.low, Role.waits, Nat.add_zero, Nat.add_right_cancel_iff] at hlow hwaits
  case attempt =>
    refine ⟨flag, h.update_keeper ?_ (by decide) (by decide)⟩
    rw [hlow] at hlowBound
    rw [hlow, hwaits]
    exact hword.add_one (by omega)
  case quick =>
    obtain ⟨rfl, _, hone⟩ := (hword.eq_iff .one).mp rfl
    refine ⟨false, h.update_cleared ?_ ?_ (by decide)⟩
    · rw [hlow, hwaits]
      exact hword
    · intro _ u hne
      exact others_of_low_one hone (by rw [hp, Role.low]) hne
  case contest =>
    refine ⟨flag, h.update_keeper ?_ (by decide) (by decide)⟩
    rw [← hlow] at hword
    rw [hwaits] at hwaitsBound ⊢
    exact hword.add_exclwait (by omega)
  case clear =>
    refine ⟨false, h.update_cleared ?_ nofun nofun⟩
    rw [hlow, hwaits]
    exact hword.clear_shared
  case take hzero =>
    have hnone := hword.and_low.mp hzero
    have hflag := h.flag_false_of_pastFlag (t := t) (.inl hp)
    subst hflag
    refine ⟨false, h.update_cleared ?_ ?_ (by decide)⟩
    · rw [hnone, ← hwaits] at hword
      rw [hlow, hnone]
      exact hword.take
    · intro _ u _
      exact no_holder_of_low_zero hnone u
  case tryTake =>
    obtain ⟨rfl, hnoWaits, hnone⟩ := (hword.eq_iff .zero).mp rfl
    refine ⟨false, h.update_cleared ?_ ?_ (by decide)⟩
    · rw [hlow, hwaits, hnoWaits, hnone]
      exact .one
    · intro _ u _
      exact no_holder_of_low_zero hnone u
  case first =>
    obtain ⟨rfl, hnoWaits, hnone⟩ := (hword.eq_iff .zero).mp rfl
    refine ⟨true, h.update_shared ?_ ?_⟩
    · rw [hlow, hwaits, hnoWaits, hnone]
      exact .sharedOne
    · intro u _ hpast
      have hpos := Role.pos_of_pastFlag hpast
      have hlowU := weight_le_total Role.low role u
      have hwaitsU := weight_le_total Role.waits role u
      omega
  case join hset =>
    have hflag := hword.and_shared.mp hset
    subst hflag
    refine ⟨true, h.update_shared ?_ fun u _ => h.calm rfl u⟩
    rw [hlow] at hlowBound
    rw [hlow, hwaits]
    exact hword.add_one (by omega)
  case release =>
    have hflag := h.flag_false_of_pastFlag (t := t) (.inr hp)
    subst hflag
    refine ⟨false, h.update_cleared ?_ nofun nofun⟩
    rw [← hlow] at hword
    rw [hwaits]
    exact hword.sub_one
  case releaseShared =>
    refine ⟨flag, h.update_keeper ?_ (by decide) (by decide)⟩
    rw [← hlow] at hword
    rw [hwaits]
    exact hword.sub_one
  case leave hne =>
    refine ⟨flag, ?_⟩
    constructor
    · rw [hlow, hwaits]
      exact hword
    · intro hflag
      exact calm_update (fun u _ => h.calm hflag u) (by decide)
    · intro hflag
      obtain ⟨u, hpos, hkeeps⟩ := h.exists_keeper hflag hne
      refine ⟨u, ?_⟩
      rw [update_of_ne]
      · exact hkeeps
      · rintro rfl
        rw [hp] at hpos
        cases hpos
    · exact h.alone_update nofun nofun
  case reset =>
    obtain ⟨_, hnoWaits, hnone⟩ := (hword.eq_iff .sharedFlag).mp rfl
    refine ⟨false, h.update_cleared ?_ nofun nofun⟩
    rw [hlow, hwaits, hnoWaits, hnone]
    exact .zero

end Inv

namespace State

def Sound (s : State T) : Prop :=
  (∃ flag, Inv s.counta flag fun t => (s.pc t).role) ∧ ∀ t, (s.pc t).Knows

theorem sound_initial : (initial : State T).Sound := by
  refine ⟨⟨false, ?_⟩, fun _ => trivial⟩
  constructor
  · have hlow : total Role.low (fun _ : T => Role.outside) = 0 := total_eq_zero rfl
    have hwaits : total Role.waits (fun _ : T => Role.outside) = 0 := total_eq_zero rfl
    simp only [initial, Pc.role, hlow, hwaits]
    exact .zero
  · intro hset
    cases hset
  · intro hset
    cases hset
  · intro t u ht
    cases ht

theorem Sound.next
    [DecidableEq T] {s s' : State T} {e : T × Option Call} (hcard : Fintype.card T < 2047)
    (h : s.Sound) (hnext : s.next e = some s') : s'.Sound := by
  obtain ⟨⟨flag, hinv⟩, hknows⟩ := h
  obtain ⟨t, c⟩ := e
  cases c with
  | none =>
    simp only [State.next, Option.map_eq_some_iff] at hnext
    obtain ⟨result, hstep, rfl⟩ := hnext
    obtain ⟨hact, hknows'⟩ := acts_of_step (hknows t) hstep
    constructor
    · simp only [role_update]
      exact hinv.act hcard hact
    · exact knows_update hknows hknows'
  | some c =>
    simp only [State.next, Option.map_eq_some_iff] at hnext
    obtain ⟨p, hcall, rfl⟩ := hnext
    obtain ⟨hrole, hknows'⟩ := role_of_call hcall
    constructor
    · simp only [role_update, hrole]
      rw [update_eq_self]
      exact ⟨flag, hinv⟩
    · exact knows_update hknows hknows'

theorem sound_of_runs
    [DecidableEq T] {s : State T} (hcard : Fintype.card T < 2047) (h : Runs s) : s.Sound := by
  apply h.invariant Sound
  · rintro s rfl
    exact sound_initial
  · intro s e s' hsound _ hnext
    exact hsound.next hcard hnext

end State

/-- A thread holds the lock from the operation that gives it the lock up to the one
that gives it back. -/
def Pc.HoldsExclusive (p : Pc) : Prop :=
  p = .exclusive ∨ p = .unlock

def Pc.Holds (p : Pc) : Prop :=
  p.HoldsExclusive ∨ p = .shared ∨ p = .unlockShared

theorem role_of_holdsExclusive (h : p.HoldsExclusive) : p.role = .exclusive := by
  rcases h with rfl | rfl
  · rfl
  · rfl

theorem role_of_holdsShared (h : p = .shared ∨ p = .unlockShared) : p.role = .shared := by
  rcases h with rfl | rfl
  · rfl
  · rfl

/-- An exclusive holder is the only holder, and the word is zero when every thread is
outside the lock's functions without a hold. -/
theorem exclusive_alone_and_idle_zero
    [DecidableEq T] {s : State T} (hcard : Fintype.card T < 2047) (h : Runs s) :
    (∀ t u, (s.pc t).HoldsExclusive → (s.pc u).Holds → t = u) ∧
      ((∀ t, s.pc t = .idle) → s.counta = 0) := by
  obtain ⟨⟨flag, hinv⟩, _⟩ := State.sound_of_runs hcard h
  constructor
  · intro t u ht hu
    by_contra hne
    have hrole := hinv.alone t u (role_of_holdsExclusive ht) hne
    cases hu with
    | inl hu => exact hrole.1 (role_of_holdsExclusive hu)
    | inr hu => exact hrole.2 (role_of_holdsShared hu)
  · intro hidle
    have hroles : (fun t => (s.pc t).role) = fun _ => Role.outside := by
      funext t
      rw [hidle t, Pc.role]
    rw [hroles] at hinv
    have hflag : flag = false := by
      cases hset : flag with
      | false => rfl
      | true =>
        obtain ⟨_, hkeeps⟩ := hinv.kept hset
        exact absurd hkeeps (by decide)
    apply (hinv.word.eq_iff .zero).mpr
    exact ⟨hflag, total_eq_zero rfl, total_eq_zero rfl⟩

theorem exclusive_alone_with_a_waiter :
    ∃ s : State (Fin 2), Runs s ∧ s.pc 0 = .exclusive ∧ s.pc 1 = .contestRead ∧
      ∀ u, (s.pc u).Holds → 0 = u := by
  have hrun : ((runEvents (fun _ _ => True) State.next (State.initial : State (Fin 2))
      [(0, some .spinLock), (0, none), (0, none), (1, some .spinLock), (1, none), (1, none),
        (1, none), (1, none)]).map fun s => (s.pc 0, s.pc 1)) =
      some (.exclusive, .contestRead) := by
    decide +kernel
  have hstart : Runs (State.initial : State (Fin 2)) := .start rfl
  obtain ⟨s, hruns, hview⟩ := hstart.view hrun
  rw [Prod.mk.injEq] at hview
  refine ⟨s, hruns, hview.1, hview.2, ?_⟩
  intro u hu
  exact (exclusive_alone_and_idle_zero (by decide) hruns).1 0 u (.inl hview.1) hu

end DragonFly.Spinlock
