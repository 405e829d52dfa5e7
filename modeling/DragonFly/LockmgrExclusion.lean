import DragonFly.PhaseTotals
import DragonFly.LockmgrInvariant
import DragonFly.LockmgrPursuit

/-!
# Exclusion

The invariant of a lock over all runs in which there are never more holds than
`LKC_MASK` can count.
-/

namespace DragonFly.Lockmgr

open Function LockCount

variable {T : Type}

namespace State

theorem owner_set [DecidableEq T] (s : State T) (t : T) (o : Outcome T) :
    (fun u => ((s.set t o).pc u).owner) =
      update (fun u => (s.pc u).owner) t o.pc.owner := by
  funext u
  by_cases hu : u = t
  · subst hu
    simp only [State.set, update_self]
  · simp only [State.set, update_of_ne hu]

/-- The calls of `LK_EXCLUPGRADE` that have not failed. -/
def Undisturbed (s : State T) : Prop :=
  ∀ t, s.called t = .exclupgrade → (s.pc t).error = none → (s.pc t).Pursues ∧ s.intruded t = false

variable {t : T} {o : Outcome T}

theorem Undisturbed.set [DecidableEq T] {s : State T} (h : s.Undisturbed)
    (herror : o.pc.error = none → (s.pc t).error = none)
    (hpursues : o.pc.error = none → (s.pc t).Pursues → o.pc.Pursues) : (s.set t o).Undisturbed := by
  intro u hcalled hnone
  by_cases hu : u = t
  · subst hu
    simp only [State.set, update_self] at hcalled hnone ⊢
    obtain ⟨hbefore, hintruded⟩ := h u hcalled (herror hnone)
    exact ⟨hpursues hnone hbefore, hintruded⟩
  · simp only [State.set, update_of_ne hu] at hcalled hnone ⊢
    exact h u hcalled hnone

variable [Fintype T]

/-- All holds, counting recursion. -/
def holds (s : State T) : ℕ :=
  total (fun h : Held => h.ex + h.sh) s.held

/-- The lock and what its threads know of it. -/
structure Ok (s : State T) : Prop where
  sound : Sound s.count.upreq s.count.excl s.count.upgrant s.count.mask s.holder s.held
    fun t => (s.pc t).owner
  exclusive : s.count.excl = true → s.count.mask ≠ 0
  knows : ∀ t, (s.pc t).Knows t s.holder (s.held t)

variable {s : State T}

theorem Ok.sane (h : s.Ok) : s.count.Sane := by
  constructor
  · intro hupreq
    exact (h.sound.upreq hupreq).1
  · intro hupreq
    exact (h.sound.upreq hupreq).2
  · intro hgrant
    have haccounts := h.sound.accounts
    rw [hgrant] at haccounts
    exact (nobody_of_grant haccounts).1

theorem mask_eq {held : T → Held} (h : Accounts x m (exTokens g held) (shTokens held)) :
    m = total (fun h : Held => h.ex + h.sh) held + g.toNat := by
  have hsum := h.sum
  rw [Fintype.sum_option] at hsum
  simp only [exTokens, shTokens] at hsum
  change m = ∑ t, ((held t).ex + (held t).sh) + g.toNat
  omega

theorem Ok.mask_lt
    [DecidableEq T] (h : s.Ok) {h' : Held} (hgrow : (s.held t).ex + (s.held t).sh < h'.ex + h'.sh)
    (hbound : total (fun h : Held => h.ex + h.sh) (update s.held t h') ≤ lkcMask) :
    s.count.mask < lkcMask := by
  have hupdate := total_update (fun h : Held => h.ex + h.sh) s.held t h'
  have hmask := mask_eq h.sound.accounts
  cases hgrant : s.count.upgrant with
  | false =>
    rw [hgrant] at hmask
    simp only [Bool.toNat_false] at hmask
    omega
  | true =>
    have haccounts := h.sound.accounts
    rw [hgrant] at haccounts
    rw [(nobody_of_grant haccounts).2.1]
    decide

variable [DecidableEq T]

theorem Ok.set (h : s.Ok) (hperforms : Performs t (core s.count s.holder (s.held t) (s.pc t)) o) :
    (s.set t o).Ok := by
  obtain ⟨hact, hknows⟩ := hperforms
  constructor
  · rw [owner_set]
    exact h.sound.act hact
  · exact hact.exclusive_mask h.exclusive
  · intro u
    by_cases hu : u = t
    · subst hu
      simp only [State.set, update_self]
      exact hknows
    · simp only [State.set, update_of_ne hu]
      exact (h.knows u).of_holder fun hholder => hact.holder_of_ne hu hholder

theorem Ok.call (h : s.Ok) {r : Request} {called : T → LockType} {intruded : T → Bool}
    (hidle : s.pc t = .idle result) (hmay : MayCall (s.held t) r.type) :
    State.Ok { s with
      pc := update s.pc t (.again r.frame), called := called, intruded := intruded } := by
  have htype : r.type ≠ .waitupgrade := by
    intro htype
    rw [htype] at hmay
    exact hmay
  constructor
  · have howner : (fun u => (update s.pc t (.again r.frame) u).owner) =
        fun u => (s.pc u).owner := by
      funext u
      by_cases hu : u = t
      · subst hu
        rw [update_self, hidle]
        exact decide_eq_false htype
      · rw [update_of_ne hu]
    simp only [howner]
    exact h.sound
  · exact h.exclusive
  · intro u
    by_cases hu : u = t
    · subst hu
      simp only [update_self, Pc.Knows, Request.frame]
      cases hcase : r.type with
      | upgrade | exclupgrade | release =>
        rw [hcase] at hmay
        exact hmay
      | _ => trivial
    · simp only [update_of_ne hu]
      exact h.knows u

theorem Ok.abandoned (h : s.Ok) (howner : (s.pc t).owner = true) :
    (s.set t ⟨s.count, s.holder, s.held t, .idle (some e)⟩).Ok := by
  constructor
  · rw [owner_set]
    exact h.sound.abandon howner
  · exact h.exclusive
  · intro u
    by_cases hu : u = t
    · subst hu
      simp only [State.set, update_self]
      trivial
    · simp only [State.set, update_of_ne hu]
      exact h.knows u

theorem Ok.wake (h : s.Ok) (hpc : s.pc t = .asleep f sleep) :
    (s.set t ⟨s.count, s.holder, s.held t, afterSleep f sleep result⟩).Ok := by
  by_cases hkept : Abandons (.asleep f sleep) result
  · obtain ⟨f', heq, herror⟩ := hkept
    cases heq
    obtain ⟨e, he⟩ := Option.isSome_iff_exists.mp herror
    have hafter : afterSleep f (.request false) result = .idle (some e) := by
      simp only [afterSleep, he]
    rw [hafter]
    apply h.abandoned
    rw [hpc]
    rfl
  · apply h.set
    rw [hpc]
    exact performs_of_wake (hpc ▸ h.knows t) hkept

theorem Ok.performs
    (h : s.Ok) (hstep : Lockmgr.step t s.count s.holder (s.held t) (s.pc t) = some o)
    (hbound : (s.set t o).holds ≤ lkcMask) :
    Performs t (core s.count s.holder (s.held t) (s.pc t)) o := by
  apply performs_of_step h.sane (h.sound.holder t) (h.sound.ownerBit t) (h.knows t) hstep
  intro hgrow
  exact h.mask_lt hgrow hbound

theorem Ok.act {e : T × Input} (h : s.Ok) (hact : s.act e.1 e.2 = some s')
    (hbound : s'.holds ≤ lkcMask) : s'.Ok := by
  obtain ⟨t, input⟩ := e
  cases input with
  | call r =>
    simp only [State.act] at hact
    split at hact
    · next result hidle =>
        split_ifs at hact with hmay
        cases hact
        exact h.call hidle hmay
    · cases hact
  | step =>
    simp only [State.act, Option.map_eq_some_iff] at hact
    obtain ⟨o, hstep, rfl⟩ := hact
    exact h.set (h.performs hstep hbound)
  | wake result =>
    simp only [State.act] at hact
    split at hact
    · next f sleep hpc =>
        cases hact
        exact h.wake hpc
    · cases hact

theorem Undisturbed.act {e : T × Input} (h : s.Undisturbed) (hok : s.Ok)
    (hact : s.act e.1 e.2 = some s') : s'.Undisturbed := by
  obtain ⟨t, input⟩ := e
  cases input with
  | call r =>
    simp only [State.act] at hact
    split at hact
    · split_ifs at hact
      cases hact
      intro u hcalled hnone
      by_cases hu : u = t
      · subst hu
        simp only [update_self] at hcalled ⊢
        exact ⟨.inl hcalled, trivial⟩
      · simp only [update_of_ne hu] at hcalled hnone ⊢
        exact h u hcalled hnone
    · cases hact
  | step =>
    simp only [State.act, Option.map_eq_some_iff] at hact
    obtain ⟨o, hstep, rfl⟩ := hact
    apply h.set
    · exact error_of_step hstep
    · intro hnone hpursues
      exact pursues_of_step hstep hpursues hnone
  | wake result =>
    simp only [State.act] at hact
    split at hact
    · next f sleep hpc =>
        cases hact
        have hknows := hok.knows t
        rw [hpc] at hknows
        apply h.set
        · intro hnone
          rw [hpc]
          exact (error_afterSleep hnone).2
        · intro hnone hpursues
          rw [hpc] at hpursues
          apply pursues_of_wake _ hpursues hnone
          intro hgrant
          rw [hgrant] at hknows
          exact hknows
    · cases hact

/-- Nobody has the lock exclusively beside a call of `LK_EXCLUPGRADE` that may succeed. -/
theorem Undisturbed.witness (h : s.Undisturbed) (hok : s.Ok) : s.witness.Undisturbed := by
  intro t hcalled hnone
  obtain ⟨hpursues, hintruded⟩ := h t hcalled hnone
  refine ⟨hpursues, ?_⟩
  simp only [State.witness, hintruded, Bool.false_or]
  split
  · rfl
  · next hbusy =>
      have hholding := holding_of_pursues hpursues (hok.knows t) hbusy
      rw [decide_eq_false_iff_not]
      rintro ⟨u, hu, hex⟩
      have hzero := hok.sound.others_not_exclusive hholding hu
      omega

end State

section Runs

variable [Fintype T]

theorem initial_ok : (State.initial : State T).Ok := by
  have hzero : ∀ v : Option T, exTokens false (fun _ : T => ⟨0, 0⟩) v = 0 := by
    intro v
    cases v <;> rfl
  have hshared : ∀ v : Option T, shTokens (fun _ : T => ⟨0, 0⟩) v = 0 := by
    intro v
    cases v <;> rfl
  constructor
  · constructor
    · constructor
      · apply Finset.sum_eq_zero
        intro v _
        exact Nat.add_eq_zero_iff.mpr ⟨hzero v, hshared v⟩
      · intro v w hv
        exact absurd (hzero v) hv.ne'
      · intro _
        exact hshared
      · intro _
        exact hzero
    · intro hupreq
      cases hupreq
    · intro t hholder
      cases hholder
    · intro t v hv
      cases hv
    · intro t hv
      cases hv
  · intro hexcl
    cases hexcl
  · intro t
    trivial

variable [DecidableEq T]

/-- The step leaves no more holds than `LKC_MASK` can count. -/
def Bounded (s : State T) (e : T × Input) : Prop :=
  ∀ s' ∈ s.next e, s'.holds ≤ lkcMask

instance (s : State T) (e : T × Input) : Decidable (Bounded s e) :=
  match h : s.next e with
  | none => .isTrue fun s' hs' => by rw [h] at hs'; cases hs'
  | some s' =>
    decidable_of_iff (s'.holds ≤ lkcMask)
      ⟨fun hle s'' hs'' => by rw [h] at hs''; cases hs''; exact hle,
        fun hall => hall s' h⟩

theorem ok_of_runs {s : State T} (h : Runs Bounded s) : s.Ok ∧ s.Undisturbed := by
  apply h.invariant fun s => s.Ok ∧ s.Undisturbed
  · rintro s rfl
    refine ⟨initial_ok, ?_⟩
    intro t hcalled
    cases hcalled
  · rintro s e s' ⟨hok, hundisturbed⟩ hbounded hnext
    have hholds := hbounded s' hnext
    rw [State.next, Option.map_eq_some_iff] at hnext
    obtain ⟨mid, hact, rfl⟩ := hnext
    have hmid : mid.Ok := hok.act hact hholds
    have hcalls : mid.Undisturbed := hundisturbed.act hok hact
    exact ⟨⟨hmid.sound, hmid.exclusive, hmid.knows⟩, hcalls.witness hmid⟩

/-- Exclusion, the meaning of `LKC_MASK` and of `LKC_EXCL`, and the promise of
`LK_EXCLUPGRADE`. -/
theorem exclusive_alone_and_counted {s : State T} (h : Runs Bounded s) :
    (∀ t u, 0 < (s.held t).ex → u ≠ t → (s.held u).ex = 0 ∧ (s.held u).sh = 0) ∧
      s.count.mask = s.holds + s.count.upgrant.toNat ∧
      (s.count.excl = true ↔ (∃ t, 0 < (s.held t).ex) ∨ s.count.upgrant = true) ∧
      ∀ t, s.called t = .exclupgrade → s.pc t = .idle none → s.intruded t = false := by
  obtain ⟨hok, hundisturbed⟩ := ok_of_runs h
  have hmask : s.count.mask = s.holds + s.count.upgrant.toNat := State.mask_eq hok.sound.accounts
  refine ⟨?_, hmask, ⟨?_, ?_⟩, ?_⟩
  · intro t u hex hu
    exact (others_of_ex hok.sound.accounts hex).2.2.2 u hu
  · intro hexcl
    cases hgrant : s.count.upgrant with
    | true => exact .inr rfl
    | false =>
      rw [hgrant] at hmask
      have hpos : 0 < s.holds := by
        have hne := hok.exclusive hexcl
        simp only [Bool.toNat_false] at hmask
        omega
      obtain ⟨t, ht⟩ := exists_weight_pos hpos
      have hsh : (s.held t).sh = 0 := hok.sound.accounts.noShared hexcl (some t)
      exact .inl ⟨t, by omega⟩
  · rintro (⟨t, hex⟩ | hgrant)
    · exact (others_of_ex hok.sound.accounts hex).1
    · exact hok.sane.upgrant_excl hgrant
  · intro t hcalled hidle
    exact (hundisturbed t hcalled (by rw [hidle]; rfl)).2

end Runs

def Request.plain (type : LockType) : Request :=
  ⟨type, false, false, false, false⟩

/-- Thread 0 gives up its shared lock, and the last release hands the lock over to it. -/
theorem upgrade_handed_over :
    ∃ s : State (Fin 2), Runs Bounded s ∧ s.called 0 = .exclupgrade ∧ s.pc 0 = .idle none ∧
      s.held 0 = ⟨1, 0⟩ ∧ s.intruded 0 = false ∧ (s.held 1).ex = 0 ∧ (s.held 1).sh = 0 := by
  have hrun : ((runEvents Bounded State.next (State.initial : State (Fin 2))
      [(0, .call (.plain .shared)), (0, .step), (0, .step), (1, .call (.plain .shared)),
        (1, .step), (1, .step), (0, .call (.plain .exclupgrade)), (0, .step), (0, .step),
        (1, .call (.plain .release)), (1, .step), (1, .step), (0, .wake none), (0, .step),
        (0, .step), (0, .step)]).map fun s => (s.called 0, s.pc 0, s.held 0)) =
      some (.exclupgrade, .idle none, ⟨1, 0⟩) := by
    decide +kernel
  have hstart : Runs Bounded (State.initial : State (Fin 2)) := .start rfl
  obtain ⟨s, hruns, hview⟩ := hstart.view hrun
  rw [Prod.mk.injEq, Prod.mk.injEq] at hview
  obtain ⟨hcalled, hpc, hheld⟩ := hview
  obtain ⟨halone, _, _, hpromise⟩ := exclusive_alone_and_counted hruns
  have hex : 0 < (s.held 0).ex := by rw [hheld]; exact Nat.one_pos
  exact ⟨s, hruns, hcalled, hpc, hheld, hpromise 0 hcalled hpc, halone 0 1 hex (by decide)⟩

/-- A lock that one thread has taken shared `n` times. -/
def sharedTimes (count : LockCount) (n : ℕ) : State Unit where
  count := count
  holder := none
  pc _ := .idle none
  held _ := ⟨0, n⟩
  called _ := .shared
  intruded _ := false

theorem sharedTimes_once (m n : ℕ) :
    runEvents (fun _ _ => True) State.next (sharedTimes { LockCount.zero with mask := m } n)
      [((), .call (.plain .shared)), ((), .step), ((), .step)] =
      some (sharedTimes (LockCount.inc { LockCount.zero with mask := m }) (n + 1)) := by
  have hupdate : ∀ {α : Type} (f : Unit → α) (a : α), update f () a = fun _ => a := by
    intro α f a
    funext u
    rfl
  simp [runEvents, State.next, State.act, State.witness, State.set, sharedTimes, MayCall,
    Request.plain, Request.frame, step, lockmgrSwitch, lkShared, zero, Deed.word,
    Deed.held, Deed.success, hupdate]

theorem sharedTimes_runs :
    ∀ n, n ≤ lkcMask →
      Runs (fun _ _ => True) (sharedTimes { LockCount.zero with mask := n } n) := by
  intro n
  induction n with
  | zero =>
    intro _
    exact .start rfl
  | succ n ih =>
    intro hle
    have hrun := (ih (Nat.le_of_succ_le hle)).run (sharedTimes_once n n)
    have hlt : ({ zero with mask := n } : LockCount).mask < lkcMask := hle
    rw [inc_of_lt hlt] at hrun
    exact hrun

/-- One more shared lock carries into `LKC_UPGRANT`. -/
theorem mask_overflows :
    ∃ s : State Unit, Runs (fun _ _ => True) s ∧ s.holds = lkcMask + 1 ∧ s.count.mask = 0 ∧
      s.count.mask ≠ s.holds + s.count.upgrant.toNat := by
  have hruns := (sharedTimes_runs lkcMask le_rfl).run (sharedTimes_once lkcMask lkcMask)
  have hholds : ∀ count n, (sharedTimes count n).holds = n := by
    intro count n
    simp [State.holds, total, sharedTimes]
  have hmask : (inc { zero with mask := lkcMask }).mask = 0 := by
    decide
  refine ⟨_, hruns, hholds _ _, hmask, ?_⟩
  rw [hholds]
  change (inc { zero with mask := lkcMask }).mask ≠ _
  omega

end DragonFly.Lockmgr
